import CompilerPlugin.Proofs.Request.Contract
import CompilerPlugin.Request.Accepted

namespace CompilerPlugin

namespace CompilerVersion

def patchText (v : CompilerVersion) : List Char :=
  if v.major ≤ 3 ∧ v.patch = 0 then [] else '.' :: Nat.toDigits 10 v.patch

def suffixText (v : CompilerVersion) : List Char :=
  if v.suffix = "" then [] else '-' :: v.suffix.toList

theorem toList_display (v : CompilerVersion) :
    v.display.toList =
      Nat.toDigits 10 v.major ++ '.' :: (Nat.toDigits 10 v.minor ++ (v.patchText ++ v.suffixText)) := by
  rw [display, release, patchText, suffixText]
  split_ifs <;> simp [Nat.toString_eq_repr, Nat.toList_repr]

theorem number_append_inj {m n : Nat} {rest rest' : List Char}
    (ends : rest.takeWhile Char.isDigit = []) (ends' : rest'.takeWhile Char.isDigit = [])
    (same : Nat.toDigits 10 m ++ rest = Nat.toDigits 10 n ++ rest') : m = n ∧ rest = rest' := by
  have digits (k : Nat) : ∀ c ∈ Nat.toDigits 10 k, c.isDigit = true :=
    fun c mem => Nat.isDigit_of_mem_toDigits (by decide) (by decide) mem
  have number := congrArg (List.takeWhile Char.isDigit) same
  rw [List.takeWhile_append_of_pos (digits m), List.takeWhile_append_of_pos (digits n), ends, ends',
    List.append_nil, List.append_nil] at number
  rw [number] at same
  have value := congrArg (Nat.ofDigitChars 10 · 0) number
  simp only [Nat.ofDigitChars_toDigits (by decide : 1 < 10) (by decide)] at value
  exact ⟨value, List.append_cancel_left same⟩

variable {v w : CompilerVersion}

theorem suffixText_ends (v : CompilerVersion) : v.suffixText.takeWhile Char.isDigit = [] := by
  rw [suffixText]
  split_ifs <;> rfl

theorem patchText_ends (v : CompilerVersion) :
    (v.patchText ++ v.suffixText).takeWhile Char.isDigit = [] := by
  rw [patchText]
  split_ifs
  · exact suffixText_ends v
  · rfl

theorem suffixText_ne_point (v : CompilerVersion) (rest : List Char) : v.suffixText ≠ '.' :: rest := by
  rw [suffixText]
  split_ifs <;> simp

theorem suffixText_inj (same : v.suffixText = w.suffixText) : v.suffix = w.suffix := by
  rw [suffixText, suffixText] at same
  split_ifs at same with none none'
  · rw [none, none']
  · exact String.toList_inj.1 (List.cons.inj same).2

theorem patchText_inj (same : v.patchText ++ v.suffixText = w.patchText ++ w.suffixText) :
    v.patch = w.patch ∧ v.suffixText = w.suffixText := by
  rw [patchText, patchText] at same
  split_ifs at same with out out'
  · exact ⟨out.2.trans out'.2.symm, same⟩
  · exact absurd same (suffixText_ne_point v _)
  · exact absurd same.symm (suffixText_ne_point w _)
  · exact number_append_inj (suffixText_ends v) (suffixText_ends w) (List.cons.inj same).2

theorem display_inj : v.display = w.display ↔ v = w := by
  refine ⟨fun same => ?_, congrArg display⟩
  have text := congrArg String.toList same
  rw [toList_display, toList_display] at text
  obtain ⟨major, text⟩ := number_append_inj rfl rfl text
  obtain ⟨minor, text⟩ := number_append_inj (patchText_ends v) (patchText_ends w) (List.cons.inj text).2
  obtain ⟨patch, text⟩ := patchText_inj text
  have suffix := suffixText_inj text
  cases v
  cases w
  simp_all only

/-- The version that was given, number by number; what is absent is 0, and no suffix is an empty one. -/
structure Converts (v : Version) (c : CompilerVersion) : Prop where
  major : (c.major : Int) = (v.major.getD 0).toInt
  minor : (c.minor : Int) = (v.minor.getD 0).toInt
  patch : (c.patch : Int) = (v.patch.getD 0).toInt
  suffix : c.suffix = v.suffix.getD ""

theorem converts_of_counts {v : Version} (counts : v.Counts) : Converts v (ofVersion v) := by
  have exact {n : Int32} (nonneg : 0 ≤ n) : (n.toInt.toNat : Int) = n.toInt :=
    Int.toNat_of_nonneg (Int32.le_iff_toInt_le.1 nonneg)
  exact ⟨exact counts.1, exact counts.2.1, exact counts.2.2, rfl⟩

theorem Converts.eq_iff {v v' : Version} {c c' : CompilerVersion} (h : Converts v c)
    (h' : Converts v' c') :
    c = c' ↔ v.major.getD 0 = v'.major.getD 0 ∧ v.minor.getD 0 = v'.minor.getD 0 ∧
      v.patch.getD 0 = v'.patch.getD 0 ∧ v.suffix.getD "" = v'.suffix.getD "" := by
  rw [← Int32.toInt_inj, ← Int32.toInt_inj, ← Int32.toInt_inj, ← h.major, ← h'.major, ← h.minor,
    ← h'.minor, ← h.patch, ← h'.patch, ← h.suffix, ← h'.suffix]
  cases c
  cases c'
  simp only [CompilerVersion.mk.injEq, Int.natCast_inj]

end CompilerVersion

namespace Request.Accepted

theorem exists_compilerVersion {a : Accepted} {v : Version}
    (given : a.request.compilerVersion = some v) :
    ∃ c, a.compilerVersion = some c ∧ CompilerVersion.Converts v c := by
  obtain ⟨-, -, -, -, -, version⟩ := check_eq_ok_iff_checks.1 a.check_eq
  refine ⟨.ofVersion v, by rw [compilerVersion, given]; rfl, ?_⟩
  exact CompilerVersion.converts_of_counts (checkVersion_eq_ok_iff.1 (version v given))

/-- Accepted requests have their compiler's version as it was given, and two of them show the same text just
where their versions agree in each number and in the suffix. -/
theorem display_compilerVersion (a b : Accepted) {v w : Version}
    (given : a.request.compilerVersion = some v) (given' : b.request.compilerVersion = some w) :
    ∃ c c', a.compilerVersion = some c ∧ b.compilerVersion = some c' ∧
      CompilerVersion.Converts v c ∧ CompilerVersion.Converts w c' ∧
      (c.display = c'.display ↔
        v.major.getD 0 = w.major.getD 0 ∧ v.minor.getD 0 = w.minor.getD 0 ∧
          v.patch.getD 0 = w.patch.getD 0 ∧ v.suffix.getD "" = w.suffix.getD "") := by
  obtain ⟨c, answer, converts⟩ := exists_compilerVersion given
  obtain ⟨c', answer', converts'⟩ := exists_compilerVersion given'
  exact ⟨c, c', answer, answer', converts, converts',
    CompilerVersion.display_inj.trans (converts.eq_iff converts')⟩

def requestBy (v : Version) : Request where
  filesToGenerate := ["a.proto"]
  compilerVersion := some v
  protoFiles := [.ofNames (some "a.proto") none [] []]

theorem check_requestBy {v : Version} (counts : v.Counts) : (requestBy v).check = .ok () :=
  checkVersion_eq_ok_iff.2 counts

theorem display_compilerVersion_patched :
    ∃ a b : Accepted,
      a.request.compilerVersion = some ⟨some 3, some 21, some 12, none⟩ ∧
      b.request.compilerVersion = some ⟨some 3, some 21, none, some ".12"⟩ ∧
      ∃ c c', a.compilerVersion = some c ∧ b.compilerVersion = some c' ∧ c.patch = 12 ∧ c'.patch = 0 ∧
        c.display ≠ c'.display := by
  let a : Accepted := ⟨requestBy ⟨some 3, some 21, some 12, none⟩, ⟨[], []⟩,
    check_requestBy ⟨by decide, by decide, by decide⟩⟩
  let b : Accepted := ⟨requestBy ⟨some 3, some 21, none, some ".12"⟩, ⟨[], []⟩,
    check_requestBy ⟨by decide, by decide, by decide⟩⟩
  obtain ⟨c, c', answer, answer', converts, converts', shown⟩ := display_compilerVersion a b rfl rfl
  refine ⟨a, b, rfl, rfl, c, c', answer, answer', ?_, ?_, fun same => ?_⟩
  · exact Int.ofNat_inj.1 converts.patch
  · exact Int.ofNat_inj.1 converts'.patch
  · exact absurd (shown.1 same).2.2.1 (by decide)

end Request.Accepted

end CompilerPlugin
