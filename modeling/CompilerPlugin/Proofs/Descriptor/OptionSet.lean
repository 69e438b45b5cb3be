import CompilerPlugin.Proofs.Message.Restrict
import CompilerPlugin.Proofs.Wire.Grammar
import CompilerPlugin.Descriptor.OptionSet
import Mathlib.Data.List.Perm.Basic

namespace CompilerPlugin.Descriptor

open Wire Schema

section

variable {α κ : Type} [DecidableEq κ]

theorem nodup_eraseDups (keys : List κ) : keys.eraseDups.Nodup := by
  induction h : keys.length using Nat.strongRecOn generalizing keys with
  | ind n ih =>
    subst h
    cases keys with
    | nil => simp
    | cons k keys =>
      rw [List.eraseDups_cons, List.nodup_cons]
      have shorter := List.length_filter_le (fun b => !b == k) keys
      refine ⟨?_, ih _ (by rw [List.length_cons]; omega) _ rfl⟩
      simp [List.mem_eraseDups]

theorem flatMap_filter_cons {k : κ} {keys : List κ} (nodup : (k :: keys).Nodup) (key : α → κ)
    (l : List α) :
    ((k :: keys).flatMap fun k' => l.filter (key · = k')) =
      l.filter (key · = k) ++
        keys.flatMap fun k' => (l.filter fun x => !decide (key x = k)).filter (key · = k') := by
  have fresh := (List.nodup_cons.1 nodup).1
  rw [List.flatMap_cons]
  congr 1
  apply List.flatMap_congr
  intro k' mem
  rw [List.filter_filter]
  apply List.filter_congr
  intro x _
  by_cases same : key x = k'
  · have other : key x ≠ k := by
      intro eq
      exact fresh (eq ▸ same ▸ mem)
    simp [same, show k' ≠ k from same ▸ other]
  · simp [same]

theorem flatMap_filter_perm {keys : List κ} (nodup : keys.Nodup) (key : α → κ) {l : List α}
    (all : ∀ x ∈ l, key x ∈ keys) : (keys.flatMap fun k => l.filter (key · = k)).Perm l := by
  induction keys generalizing l with
  | nil =>
    cases l with
    | nil => exact .nil
    | cons x l => simpa using all x List.mem_cons_self
  | cons k keys ih =>
    rw [flatMap_filter_cons nodup]
    have rest := ih (List.nodup_cons.1 nodup).2 (l := l.filter fun x => !decide (key x = k)) fun x mem => by
      obtain ⟨mem, other⟩ := List.mem_filter.1 mem
      exact (List.mem_cons.1 (all x mem)).resolve_left (by simpa using other)
    exact (rest.append_left _).trans (List.filter_append_perm (key · = k) l)

theorem filter_flatMap_filter {keys : List κ} (nodup : keys.Nodup) (key : α → κ) {l : List α}
    (all : ∀ x ∈ l, key x ∈ keys) (k : κ) :
    (keys.flatMap fun k' => l.filter (key · = k')).filter (key · = k) = l.filter (key · = k) := by
  induction keys generalizing l with
  | nil =>
    cases l with
    | nil => rfl
    | cons x l => simpa using all x List.mem_cons_self
  | cons k' keys ih =>
    rw [flatMap_filter_cons nodup, List.filter_append,
      ih (List.nodup_cons.1 nodup).2 (l := l.filter fun x => !decide (key x = k')) fun x mem => by
        obtain ⟨mem, other⟩ := List.mem_filter.1 mem
        exact (List.mem_cons.1 (all x mem)).resolve_left (by simpa using other)]
    rw [List.filter_filter, List.filter_filter]
    rcases eq_or_ne k k' with rfl | other
    · have none : l.filter (fun x => decide (key x = k) && !decide (key x = k)) = [] := by
        simp
      rw [none, List.append_nil]
      exact List.filter_congr fun x _ => by simp
    · have none : l.filter (fun x => decide (key x = k) && decide (key x = k')) = [] := by
        apply List.filter_eq_nil_iff.2
        intro x _
        simp only [Bool.and_eq_true, decide_eq_true_eq, not_and]
        exact fun eq => eq ▸ other
      rw [none, List.nil_append]
      apply List.filter_congr
      intro x _
      by_cases eq : key x = k
      · simp [eq, other]
      · simp [eq]

end

namespace OptionSet

def regroup (es : List Entry) : List Entry :=
  (es.map (·.key.number)).eraseDups.flatMap fun number => es.filter (·.key.number = number)

theorem number_mem {es : List Entry} :
    ∀ e ∈ es, e.key.number ∈ (es.map (·.key.number)).eraseDups := by
  intro e mem
  rw [List.mem_eraseDups]
  exact List.mem_map_of_mem mem

theorem regroup_perm (es : List Entry) : (regroup es).Perm es :=
  flatMap_filter_perm (nodup_eraseDups _) (fun e : Entry => e.key.number) number_mem

theorem filter_regroup (es : List Entry) (number : Nat) :
    (regroup es).filter (·.key.number = number) = es.filter (·.key.number = number) :=
  filter_flatMap_filter (nodup_eraseDups _) (fun e : Entry => e.key.number) number_mem number

theorem encode_ofEntries (resolve : Resolver) (kind : Kind) (es : List Entry) :
    (ofEntries resolve kind es).encode = (regroup es).flatMap (·.raw) := by
  simp [encode, ofEntries, OptionField.encoded, regroup, List.flatMap_map, List.flatMap_assoc]

theorem length_encode_ofEntries (resolve : Resolver) (kind : Kind) (es : List Entry) :
    (ofEntries resolve kind es).encode.length = (es.flatMap (·.raw)).length := by
  rw [encode_ofEntries]
  exact ((regroup_perm es).flatMap_right _).length_eq

theorem decode_eq_ok_iff {resolve : Resolver} {kind : Kind} {bytes : List UInt8}
    {o : OptionSet} :
    decode resolve kind bytes = .ok o ↔ ∃ es, IsRow bytes es ∧ ofEntries resolve kind es = o := by
  constructor
  · intro h
    rw [decode] at h
    split at h
    · rename_i es splits
      exact ⟨es, split_eq_complete_iff.1 splits, Except.ok.inj h⟩
    · cases h
    · cases h
  · rintro ⟨es, row, rfl⟩
    rw [decode]
    rw [split_eq_complete_iff.2 row]

theorem decode_flatMap (resolve : Resolver) (kind : Kind) {es : List Entry}
    (fits : ∀ e ∈ es, e.Fits maxDepth) :
    decode resolve kind (es.flatMap (·.raw)) = .ok (ofEntries resolve kind es) :=
  decode_eq_ok_iff.2 ⟨es, isRow_iff.2 ⟨fits, rfl⟩, rfl⟩

theorem exists_decode (resolve : Resolver) (kind : Kind) {depth : Nat} (le : depth ≤ maxDepth)
    {t : MessageType} {bytes : List UInt8} {m : Message} (h : Message.ReadsAs depth t [] bytes m) :
    ∃ o, decode resolve kind bytes = .ok o ∧ Message.ReadsAs depth t [] o.encode m ∧
      o.encode.length = bytes.length := by
  obtain ⟨es, fits, rfl, row⟩ := (Message.readsAs_iff le).1 h
  refine ⟨ofEntries resolve kind es, decode_flatMap resolve kind fits, ?_,
    length_encode_ofEntries resolve kind es⟩
  have fits' : ∀ e ∈ regroup es, e.Fits maxDepth := fun e mem =>
    fits e ((regroup_perm es).mem_iff.1 mem)
  exact (Message.readsAs_iff le).2 ⟨regroup es, fits', encode_ofEntries resolve kind es,
    row.congr (filter_regroup es)⟩

end OptionSet

end CompilerPlugin.Descriptor
