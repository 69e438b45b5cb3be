import CompilerPlugin.Proofs.Path.Canonical
import CompilerPlugin.Proofs.Response.Sift

namespace CompilerPlugin

theorem GeneratedFile.withName_nameText {f : GeneratedFile} (named : f.nameText ≠ "") :
    f.withName f.nameText = f := by
  obtain ⟨_ | name, _, _, _⟩ := f
  · exact absurd rfl named
  · rfl

namespace Response

/-- Records under canonical names, with no plain file of a name that a record before it has. -/
structure Reconciled (files : List GeneratedFile) : Prop where
  canonical : ∀ f ∈ files, Path.normalize f.nameText = .ok f.nameText
  plain : files.Pairwise fun before f => f.isInsertion = false → f.nameText ≠ before.nameText

section

variable {kept files out : List GeneratedFile} {f : GeneratedFile} {mode : Mode}

theorem reconciled_nil : Reconciled [] :=
  ⟨by simp, .nil⟩

theorem reconciled_append_singleton :
    Reconciled (kept ++ [f]) ↔
      Reconciled kept ∧ Path.normalize f.nameText = .ok f.nameText ∧ ¬ Repeats kept f f.nameText := by
  have alone : (∀ g ∈ kept, f.isInsertion = false → f.nameText ≠ g.nameText) ↔
      ¬ Repeats kept f f.nameText := by
    simp only [Repeats, not_and, not_exists, ne_eq, eq_comm (a := f.nameText)]
    exact ⟨fun h plain g mem => h g mem plain, fun h g mem plain => h plain g mem⟩
  constructor
  · rintro ⟨canonical, plain⟩
    obtain ⟨before, -, last⟩ := List.pairwise_append.1 plain
    exact ⟨⟨fun g mem => canonical g (List.mem_append_left _ mem), before⟩,
      canonical f (by simp), alone.1 fun g mem => last g mem f List.mem_cons_self⟩
  · rintro ⟨⟨canonical, before⟩, named, first⟩
    refine ⟨fun g mem => ?_, List.pairwise_append.2 ⟨before, List.pairwise_singleton _ _, ?_⟩⟩
    · rcases List.mem_append.1 mem with mem | mem
      · exact canonical g mem
      · rwa [List.mem_singleton.1 mem]
    · intro g mem h last
      obtain rfl := List.mem_singleton.1 last
      exact alone.2 first g mem

theorem Reconciled.named (h : Reconciled files) : ∀ f ∈ files, f.nameText ≠ "" :=
  fun f mem => Path.ne_empty_of_normalize (h.canonical f mem)

theorem Reconciled.of_append (h : Reconciled (kept ++ files)) : Reconciled kept :=
  ⟨fun f mem => h.canonical f (List.mem_append_left _ mem), (List.pairwise_append.1 h.plain).1⟩

theorem Reconciled.keep (h : Reconciled kept)
    (canonical : Path.normalize f.nameText = .ok f.nameText) : Reconciled (Response.keep kept f) := by
  rw [Response.keep]
  split
  · exact h
  · rename_i first
    exact reconciled_append_singleton.2 ⟨h, canonical, first⟩

theorem reconciled_sift (h : Reconciled kept) (made : (sift mode kept files).result = .ok out) :
    Reconciled out := by
  induction files generalizing kept with
  | nil =>
    cases made
    exact h
  | cons f rest ih =>
    rw [sift, List.foldlM_cons] at made
    obtain ⟨next, first, made⟩ := Judged.result_bind_eq_ok.1 made
    obtain ⟨name, named, rfl⟩ := result_receive first
    exact ih (h.keep (Path.normalize_normalize named)) made

theorem receive_of_reconciled (mode : Mode) (h : Reconciled (kept ++ [f])) :
    receive mode kept f = .accept (kept ++ [f]) := by
  obtain ⟨-, canonical, first⟩ := reconciled_append_singleton.1 h
  have unchanged := GeneratedFile.withName_nameText (Path.ne_empty_of_normalize canonical)
  rw [receive, canonical]
  simp only [Judged.reportIf_bind, ne_eq, not_true_eq_false, if_false, first, unchanged,
    Response.keep]
  rfl

theorem sift_of_reconciled (mode : Mode) (h : Reconciled (kept ++ files)) :
    sift mode kept files = .accept (kept ++ files) := by
  induction files generalizing kept with
  | nil => rw [List.append_nil]; rfl
  | cons f rest ih =>
    have split : kept ++ f :: rest = kept ++ [f] ++ rest := by simp
    rw [split] at h ⊢
    have later := ih h
    rw [sift, List.foldlM_cons, receive_of_reconciled mode h.of_append]
    exact (pure_bind _ _).trans later

theorem mergeInto_of_named {current : GeneratedFile} (named : ∀ f ∈ files, f.nameText ≠ "") :
    mergeInto current files = .ok (current :: files) := by
  induction files generalizing current with
  | nil => rfl
  | cons f rest ih =>
    rw [mergeInto, if_pos (named f List.mem_cons_self),
      ih fun g mem => named g (List.mem_cons_of_mem f mem)]
    rfl

theorem mergeContinuations_of_named (named : ∀ f ∈ files, f.nameText ≠ "") :
    mergeContinuations files = .ok files := by
  cases files with
  | nil => rfl
  | cons f rest =>
    rw [mergeContinuations, if_neg (named f List.mem_cons_self)]
    exact mergeInto_of_named fun g mem => named g (List.mem_cons_of_mem f mem)

end

def Supported (r : Response) : Prop :=
  ∃ features : Features, r.supportedFeatures.getD 0 = features.bits ∧
    (features.supportsEditions → r.minimumEdition.getD 0 ≠ 0 ∧ r.maximumEdition.getD 0 ≠ 0 ∧
      r.minimumEdition.getD 0 ≤ r.maximumEdition.getD 0)

theorem checkEditions_eq_ok_iff {minimum maximum : Int32} :
    checkEditions minimum maximum = .ok () ↔ minimum ≠ 0 ∧ maximum ≠ 0 ∧ minimum ≤ maximum := by
  rw [checkEditions]
  split
  · simp [*]
  split
  · simp [*]
  split
  · rename_i inverted
    simp [*, Int32.not_le]
  · rename_i ordered
    simp [*, Int32.not_lt.1 ordered]

theorem checkSupport_of_bits {r : Response} {features : Features}
    (known : r.supportedFeatures.getD 0 = features.bits) :
    r.checkSupport =
      if features.supportsEditions then
        checkEditions (r.minimumEdition.getD 0) (r.maximumEdition.getD 0)
      else .ok () := by
  rw [checkSupport, known, Features.ofBits_bits]

theorem checkSupport_eq_ok_iff {r : Response} : r.checkSupport = .ok () ↔ r.Supported := by
  constructor
  · intro h
    cases known : Features.ofBits (r.supportedFeatures.getD 0) with
    | error u => rw [checkSupport, known] at h; cases h
    | ok features =>
      have bits := (Features.bits_of_ofBits known).symm
      rw [checkSupport_of_bits bits] at h
      refine ⟨features, bits, fun editions => ?_⟩
      rw [if_pos editions] at h
      exact checkEditions_eq_ok_iff.1 h
  · rintro ⟨features, bits, editions⟩
    rw [checkSupport_of_bits bits]
    split
    · rename_i supported
      exact checkEditions_eq_ok_iff.2 (editions supported)
    · rfl

theorem normalize_of_named (mode : Mode) {r : Response} (named : ∀ f ∈ r.files, f.nameText ≠ "") :
    r.normalize mode =
      sift mode [] r.files >>= fun files =>
        .ofExcept (r.checkSupport.map fun _ => { r with files }) :=
  normalize_of_merged mode (mergeContinuations_of_named named)

theorem normalize_of_reconciled (mode : Mode) {r : Response} (h : Reconciled r.files) :
    r.normalize mode = .ofExcept (r.checkSupport.map fun _ => r) := by
  have kept : sift mode [] r.files = pure r.files := sift_of_reconciled mode h
  rw [normalize_of_named mode h.named, kept, pure_bind]

theorem normalize_of_supported (mode : Mode) {r : Response} (h : Reconciled r.files)
    (supported : r.Supported) : r.normalize mode = .accept r := by
  rw [normalize_of_reconciled mode h, checkSupport_eq_ok_iff.2 supported]
  rfl

/-- What a response is judged to be has the normal form, and is its files apart what was given. To be
judged again, strictly or leniently, makes no difference to it and gives no warning. -/
theorem normal_of_normalize (mode : Mode) (r out : Response)
    (made : (r.normalize mode).result = .ok out) :
    (∀ f ∈ out.files, f.nameText ≠ "") ∧ Reconciled out.files ∧ out.Supported ∧
      out = { r with files := out.files } ∧ ∀ again, out.normalize again = .accept out := by
  obtain ⟨merged, -, sifted, supported, same⟩ := normalize_eq_ok_iff.1 made
  have reconciled : Reconciled out.files := reconciled_sift reconciled_nil sifted
  have still : out.Supported := by
    rw [same]
    exact checkSupport_eq_ok_iff.1 supported
  exact ⟨reconciled.named, reconciled, still, same,
    fun again => normalize_of_supported again reconciled still⟩

def unsettled : Response where
  error := some "note"
  supportedFeatures := some 2
  minimumEdition := some 1000
  maximumEdition := some 1001
  files := [.new "./a" "1", .continuation "2", .new "a" "3", .insertion "a" "p" "4"]

def settled : Response :=
  { unsettled with files := [.new "a" "12", .insertion "a" "p" "4"] }

theorem normal_of_normalize_unsettled :
    (unsettled.normalize .lenient).result = .ok settled ∧ Reconciled settled.files ∧
      settled.Supported ∧ settled.normalize .strict = .accept settled := by
  have made : (unsettled.normalize .lenient).result = .ok settled := rfl
  obtain ⟨-, reconciled, supported, -, again⟩ := normal_of_normalize _ _ _ made
  exact ⟨made, reconciled, supported, again .strict⟩

end Response

end CompilerPlugin
