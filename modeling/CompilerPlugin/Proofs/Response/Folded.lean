import CompilerPlugin.Proofs.Response.Calls

namespace CompilerPlugin

section

variable {α β : Type} {p : α → Bool}

theorem foldl_filter_of_idle {f : β → α → β} (idle : ∀ b a, p a = false → f b a = b) (l : List α)
    (b : β) : (l.filter p).foldl f b = l.foldl f b := by
  rw [List.foldl_filter]
  congr 1
  funext b a
  split
  · rfl
  · rename_i out
    exact (idle b a (by simpa using out)).symm

theorem filterMap_filter_of_idle {f : α → Option β} (idle : ∀ a, p a = false → f a = none)
    (l : List α) : (l.filter p).filterMap f = l.filterMap f := by
  rw [List.filterMap_filter]
  congr 1
  funext a
  split
  · rfl
  · rename_i out
    exact (idle a (by simpa using out)).symm

def lastOf (f : α → Option β) (l : List α) : Option β :=
  (l.filterMap f).getLast?

theorem lastOf_append (f : α → Option β) (l l' : List α) :
    lastOf f (l ++ l') = (lastOf f l').or (lastOf f l) := by
  rw [lastOf, List.filterMap_append, List.getLast?_append]
  rfl

end

namespace Response.Writer

namespace Call

def error? : Call → Option String
  | .setError message => if message = "" then none else some message
  | _ => none

def minimum? : Call → Option Int32
  | .supportEditions minimum _ => some minimum
  | .setMinimum minimum => some minimum
  | _ => none

def maximum? : Call → Option Int32
  | .supportEditions _ maximum => some maximum
  | .setMaximum maximum => some maximum
  | _ => none

def supports (mask : UInt64) : Call → UInt64
  | .setFeatures given => if given ≤ 3 then given else mask
  | .addFeatures given => if given ≤ 3 then mask ||| given else mask
  | .supportEditions _ _ => mask ||| 2
  | _ => mask

inductive Group where
  | files | error | support
deriving DecidableEq

def group? : Call → Option Group
  | .addFiles _ => some .files
  | .setError _ => some .error
  | .setFeatures _ => some .support
  | .addFeatures _ => some .support
  | .supportEditions _ _ => some .support
  | .setMinimum _ => some .support
  | .setMaximum _ => some .support
  | .finalize => none

variable {c : Call}

theorem records_eq_nil (out : c.group? ≠ some .files) : c.records = [] := by
  cases c with
  | addFiles => exact absurd rfl out
  | _ => rfl

theorem error?_eq_none (out : c.group? ≠ some .error) : c.error? = none := by
  cases c with
  | setError => exact absurd rfl out
  | _ => rfl

theorem minimum?_eq_none (out : c.group? ≠ some .support) : c.minimum? = none := by
  cases c with
  | supportEditions | setMinimum => exact absurd rfl out
  | _ => rfl

theorem maximum?_eq_none (out : c.group? ≠ some .support) : c.maximum? = none := by
  cases c with
  | supportEditions | setMaximum => exact absurd rfl out
  | _ => rfl

theorem supports_eq_self (out : c.group? ≠ some .support) (mask : UInt64) :
    c.supports mask = mask := by
  cases c with
  | setFeatures | addFeatures | supportEditions => exact absurd rfl out
  | _ => rfl

end Call

def folded (calls : List Call) : Response :=
  { error := lastOf Call.error? calls
    supportedFeatures := (some (calls.foldl Call.supports 0)).filter (· ≠ 0)
    minimumEdition := (lastOf Call.minimum? calls).filter (· ≠ 0)
    maximumEdition := (lastOf Call.maximum? calls).filter (· ≠ 0)
    files := accumulated calls }

def verdict (calls : List Call) : Except Violation Response :=
  let r := folded calls
  if calls.foldl Call.supports 0 &&& 2 = 0 then .ok r
  else
    match r.minimumEdition, r.maximumEdition with
    | none, _ => .error .missingMinimum
    | some _, none => .error .missingMaximum
    | some minimum, some maximum =>
      if maximum < minimum then .error (.invertedEditions minimum maximum) else .ok r

variable {w : Writer} {mode : Mode}

theorem changeFeatures_of_open (opened : w.finalized = false) (mask : UInt64)
    {f : Features → Features} {bits : UInt64 → UInt64}
    (agree : ∀ given, (f given).bits = bits given.bits) :
    ∃ features : Features,
      (w.changeFeatures mask f).writer = { w with features } ∧
        features.bits = if mask ≤ 3 then bits mask else w.features.bits := by
  rw [changeFeatures]
  split_ifs with known
  · obtain ⟨given, parsed⟩ := Features.exists_ofBits known
    rw [parsed]
    refine ⟨f given, congrArg Outcome.writer (ifOpen_of_open opened _), ?_⟩
    rw [agree, Features.bits_of_ofBits parsed]
  · rw [Features.ofBits_of_lt (UInt64.not_le.1 known)]
    exact ⟨w.features, rfl, rfl⟩

structure Moves (calls : List Call) (w v : Writer) : Prop where
  error : v.error = (lastOf Call.error? calls).or w.error
  bits : v.features.bits = calls.foldl Call.supports w.features.bits
  minimum : v.minimum = (lastOf Call.minimum? calls).getD w.minimum
  maximum : v.maximum = (lastOf Call.maximum? calls).getD w.maximum

theorem Moves.trans {calls more : List Call} {u v w : Writer} (h : Moves calls u v)
    (h' : Moves more v w) : Moves (calls ++ more) u w where
  error := by rw [h'.error, h.error, lastOf_append, Option.or_assoc]
  bits := by rw [h'.bits, h.bits, List.foldl_append]
  minimum := by rw [h'.minimum, h.minimum, lastOf_append]; cases lastOf Call.minimum? more <;> rfl
  maximum := by rw [h'.maximum, h.maximum, lastOf_append]; cases lastOf Call.maximum? more <;> rfl

theorem moves_perform (opened : w.finalized = false) (mode : Mode) {c : Call}
    (goesOn : c ≠ .finalize) : Moves [c] w (w.perform mode c).writer := by
  cases c with
  | addFiles files =>
    simp only [perform, addFiles, ifOpen_of_open opened, Outcome.map, writer_addRecords]
    exact ⟨rfl, rfl, rfl, rfl⟩
  | setError message =>
    simp only [perform, setError, ifOpen_of_open opened, Outcome.map, Outcome.done]
    split_ifs with empty
    · exact ⟨by simp [lastOf, Call.error?, empty], rfl, rfl, rfl⟩
    · exact ⟨by simp [lastOf, Call.error?, empty], rfl, rfl, rfl⟩
  | setFeatures mask =>
    have same (given : Features) : given.bits = id given.bits := rfl
    obtain ⟨features, changed, bits⟩ := changeFeatures_of_open opened mask same
    simp only [perform, setFeatures, Outcome.map, changed]
    exact ⟨rfl, bits, rfl, rfl⟩
  | addFeatures mask =>
    obtain ⟨features, changed, bits⟩ :=
      changeFeatures_of_open opened mask (Features.bits_union w.features)
    simp only [perform, addFeatures, Outcome.map, changed]
    exact ⟨rfl, bits, rfl, rfl⟩
  | supportEditions =>
    simp only [perform, supportEditions, ifOpen_of_open opened]
    exact ⟨rfl, Features.bits_union _ _, rfl, rfl⟩
  | setMinimum | setMaximum =>
    simp only [perform, setMinimum, setMaximum, ifOpen_of_open opened]
    exact ⟨rfl, rfl, rfl, rfl⟩
  | finalize => exact absurd rfl goesOn

theorem moves_after (opened : w.finalized = false) (mode : Mode) {calls : List Call}
    (goesOn : .finalize ∉ calls) : Moves calls w (after (perform mode) w calls) := by
  induction calls generalizing w with
  | nil => exact ⟨rfl, rfl, rfl, rfl⟩
  | cons c rest ih =>
    have other : c ≠ .finalize := fun same => goesOn (same ▸ List.mem_cons_self)
    exact (moves_perform opened mode other).trans
      (ih (open_perform opened mode other) fun mem => goesOn (List.mem_cons_of_mem c mem))

theorem nonzero_getD_zero {α : Type} [DecidableEq α] [OfNat α 0] (o : Option α) :
    nonzero (o.getD 0) = o.filter (· ≠ 0) := by
  cases o with
  | none => exact if_pos rfl
  | some a =>
    rw [Option.getD_some, nonzero, Option.filter_some]
    split_ifs <;> simp_all

theorem response_after (mode : Mode) {calls : List Call} (goesOn : .finalize ∉ calls) :
    (after (perform mode) {} calls).response = folded calls := by
  obtain ⟨error, bits, minimum, maximum⟩ := moves_after (w := {}) rfl mode goesOn
  obtain ⟨-, files⟩ := after_of_open (w := {}) rfl mode goesOn
  rw [response, error, bits, minimum, maximum, files, nonzero_getD_zero, nonzero_getD_zero,
    Option.or_none]
  exact congrArg (fun mask => { folded calls with supportedFeatures := mask })
    (nonzero_getD_zero (some _))

theorem checkEditions_nonzero (minimum maximum : Int32) :
    checkEditions minimum maximum =
      match nonzero minimum, nonzero maximum with
      | none, _ => .error .missingMinimum
      | some _, none => .error .missingMaximum
      | some minimum, some maximum =>
        if maximum < minimum then .error (.invertedEditions minimum maximum) else .ok () := by
  rw [checkEditions, nonzero, nonzero]
  split_ifs
  · rfl
  · rfl
  · rfl
  · exact (if_pos ‹_›).symm
  · exact (if_neg ‹_›).symm

theorem finalize_after (mode : Mode) {calls : List Call} (goesOn : .finalize ∉ calls) :
    ((after (perform mode) {} calls).perform mode .finalize).answer =
      ((verdict calls).map some).mapError .response := by
  obtain ⟨opened, -⟩ := after_of_open (w := {}) rfl mode goesOn
  have reconciled := reconciled_after (w := {}) reconciled_nil mode calls
  have bits : _ = calls.foldl Call.supports 0 := (moves_after (w := {}) rfl mode goesOn).bits
  have response := response_after mode goesOn
  rw [perform_finalize opened reconciled, checkSupport_response, checkEditions_nonzero, verdict,
    ← response, ← bits]
  generalize after (perform mode) {} calls = w
  simp only [Features.bits_and_two]
  cases w.features.supportsEditions with
  | false => rfl
  | true =>
    simp only [Writer.response]
    cases nonzero w.minimum with
    | none => rfl
    | some minimum =>
      cases nonzero w.maximum with
      | none => rfl
      | some maximum =>
        simp only [Bool.true_eq_false, if_false, if_true]
        split_ifs <;> rfl

section

variable {calls other : List Call}

theorem lastOf_group {β : Type} {f : Call → Option β} {g : Call.Group}
    (idle : ∀ c, c.group? ≠ some g → f c = none)
    (same : other.filter (·.group? = some g) = calls.filter (·.group? = some g)) :
    lastOf f other = lastOf f calls := by
  have idle (c : Call) (out : decide (c.group? = some g) = false) : f c = none :=
    idle c (of_decide_eq_false out)
  rw [lastOf, lastOf, ← filterMap_filter_of_idle idle, same, filterMap_filter_of_idle idle]

theorem foldl_group {β : Type} {f : β → Call → β} {g : Call.Group}
    (idle : ∀ b c, c.group? ≠ some g → f b c = b)
    (same : other.filter (·.group? = some g) = calls.filter (·.group? = some g)) (b : β) :
    other.foldl f b = calls.foldl f b := by
  have idle (b : β) (c : Call) (out : decide (c.group? = some g) = false) : f b c = b :=
    idle b c (of_decide_eq_false out)
  rw [← foldl_filter_of_idle idle, same, foldl_filter_of_idle idle]

theorem gather_of_group {c : Call} (out : c.group? ≠ some .files) (kept : List GeneratedFile) :
    gather kept c = kept := by
  rw [gather, Call.records_eq_nil out]
  rfl

theorem verdict_group
    (same : ∀ g, other.filter (·.group? = some g) = calls.filter (·.group? = some g)) :
    verdict other = verdict calls := by
  have files : accumulated other = accumulated calls :=
    foldl_group (fun kept _ out => gather_of_group out kept) (same .files) []
  have error := lastOf_group (fun _ => Call.error?_eq_none) (same .error)
  have bits := foldl_group (fun mask _ out => Call.supports_eq_self out mask) (same .support) 0
  have minimum := lastOf_group (fun _ => Call.minimum?_eq_none) (same .support)
  have maximum := lastOf_group (fun _ => Call.maximum?_eq_none) (same .support)
  have folds : folded other = folded calls := by
    rw [folded, folded, files, error, bits, minimum, maximum]
  rw [verdict, verdict, folds, bits]

end

/-- The first finalizing of a writer answers with the fold of the calls before it: the last error set,
the features and the last bounds of editions, each absent if it came to nothing, and the records added.
It refuses just when the features have editions and their range lacks its minimum, lacks its maximum or
is inverted. Calls of different groups may be mixed in any way. -/
theorem answer_finalize (mode : Mode) (calls rest : List Call) (goesOn : .finalize ∉ calls) :
    let answer (calls rest : List Call) :=
      (performAll (perform mode) {} (calls ++ .finalize :: rest))[calls.length]?.map Outcome.answer
    answer calls rest = some (((verdict calls).map some).mapError .response) ∧
      ∀ other more, .finalize ∉ other →
        (∀ g, other.filter (·.group? = some g) = calls.filter (·.group? = some g)) →
          answer other more = answer calls rest := by
  intro answer
  have answered {calls : List Call} (goesOn : .finalize ∉ calls) (rest : List Call) :
      answer calls rest = some (((verdict calls).map some).mapError .response) := by
    simp only [answer, getElem?_performAll, Option.map_some, finalize_after mode goesOn]
  refine ⟨answered goesOn rest, fun other more otherGoesOn same => ?_⟩
  rw [answered goesOn, answered otherGoesOn, verdict_group same]

def settingCalls : List Call :=
  [.setFeatures 2, .setError "first", .addFile "a" "1", .addFeatures 8, .setMinimum 998,
    .supportEditions 1000 1001, .setError "", .setFeatures 2, .addFeatures 1]

def sortedCalls : List Call :=
  [.addFile "a" "1", .setError "first", .setError "", .setFeatures 2, .addFeatures 8,
    .setMinimum 998, .supportEditions 1000 1001, .setFeatures 2, .addFeatures 1]

theorem answer_finalize_settingCalls :
    (.finalize ∉ settingCalls ∧ .finalize ∉ sortedCalls) ∧
      (performAll (perform .strict) {} (settingCalls ++ [.finalize]))[9]?.map Outcome.answer =
        some (.ok (some
          { error := some "first", supportedFeatures := some 3, minimumEdition := some 1000,
            maximumEdition := some 1001, files := [.new "a" "1"] })) ∧
      (performAll (perform .strict) {} (sortedCalls ++ [.finalize]))[9]?.map Outcome.answer =
        (performAll (perform .strict) {} (settingCalls ++ [.finalize]))[9]?.map Outcome.answer := by
  have goesOn : .finalize ∉ settingCalls := by simp [settingCalls, Call.addFile]
  have sortedGoesOn : .finalize ∉ sortedCalls := by simp [sortedCalls, Call.addFile]
  obtain ⟨answer, mixed⟩ := answer_finalize .strict settingCalls [] goesOn
  refine ⟨⟨goesOn, sortedGoesOn⟩, answer.trans rfl, mixed sortedCalls [] sortedGoesOn ?_⟩
  rintro (_ | _ | _) <;> rfl

end Response.Writer

end CompilerPlugin
