import CompilerPlugin.Proofs.Response.Sift

namespace CompilerPlugin.Response

theorem receive_strict (kept : List GeneratedFile) (f : GeneratedFile) :
    receive .strict kept f = (receive .lenient kept f).strictly := by
  rw [receive, receive]
  cases Path.normalize f.nameText with
  | error e => rfl
  | ok name =>
    simp only [Judged.strictly_bind, Judged.strictly_reportIf]
    rfl

theorem sift_strict (kept files : List GeneratedFile) :
    sift .strict kept files = (sift .lenient kept files).strictly :=
  Judged.strictly_foldlM receive_strict files kept

theorem normalize_strict (r : Response) :
    r.normalize .strict = (r.normalize .lenient).strictly := by
  simp only [normalize_eq_sift, Judged.strictly_bind, sift_strict]
  rfl

/-- Strictly judged, a response comes to what it comes to leniently if that lets no issue pass, and
to the first of these issues else. No issue is let pass then. -/
theorem normalize_strict_eq (r : Response) :
    (r.normalize .strict).warnings = [] ∧
      (r.normalize .strict).result =
        match (r.normalize .lenient).warnings with
        | [] => (r.normalize .lenient).result
        | i :: _ => .error (.issue i) := by
  rw [normalize_strict, Judged.strictly]
  cases found : (r.normalize .lenient).warnings with
  | nil => exact ⟨found, rfl⟩
  | cons i rest => exact ⟨rfl, rfl⟩

example :
    let r : Response := { files := [.new "./a" "1", .new "/b" "2"] }
    r.normalize .lenient =
        ⟨[.unnormalizedName "./a" "a"], .error (.invalidPath (.absolute "/b"))⟩ ∧
      r.normalize .strict = ⟨[], .error (.issue (.unnormalizedName "./a" "a"))⟩ :=
  ⟨rfl, rfl⟩

end CompilerPlugin.Response
