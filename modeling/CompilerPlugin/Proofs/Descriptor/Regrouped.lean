import CompilerPlugin.Proofs.Descriptor.Grouped
import Mathlib.Data.List.Induction

namespace CompilerPlugin.Descriptor

open Wire

section

variable {α κ : Type} [DecidableEq κ]

theorem eraseDups_concat_of_mem {keys : List κ} {k : κ} (known : k ∈ keys) :
    (keys ++ [k]).eraseDups = keys.eraseDups := by
  have none : [k].removeAll keys = [] := by simp [List.removeAll, known]
  rw [List.eraseDups_append, none, List.eraseDups_nil, List.append_nil]

theorem eraseDups_concat_of_notMem {keys : List κ} {k : κ} (new : k ∉ keys) :
    (keys ++ [k]).eraseDups = keys.eraseDups ++ [k] := by
  have one : ([k].removeAll keys).eraseDups = [k] := by
    simp [List.removeAll, new, List.eraseDups_cons]
  rw [List.eraseDups_append, one]

theorem pairwise_eraseDups (keys : List κ) :
    keys.eraseDups.Pairwise fun a b => keys.idxOf a < keys.idxOf b := by
  induction keys using List.reverseRecOn with
  | nil => simp
  | append_singleton keys k ih =>
    have old {a : κ} (mem : a ∈ keys.eraseDups) : (keys ++ [k]).idxOf a = keys.idxOf a :=
      List.idxOf_append_of_mem (List.mem_eraseDups.1 mem)
    have front : keys.eraseDups.Pairwise fun a b => (keys ++ [k]).idxOf a < (keys ++ [k]).idxOf b :=
      ih.imp_of_mem fun ha hb lt => by rwa [old ha, old hb]
    rcases em (k ∈ keys) with known | new
    · rwa [eraseDups_concat_of_mem known]
    · rw [eraseDups_concat_of_notMem new, List.pairwise_append]
      refine ⟨front, List.pairwise_singleton _ _, ?_⟩
      intro a ha b hb
      obtain rfl : b = k := List.mem_singleton.1 hb
      rw [old ha, List.idxOf_append_of_notMem new]
      have := List.idxOf_lt_length_of_mem (List.mem_eraseDups.1 ha)
      omega

theorem mem_iff_of_filter_eq {key : α → κ} {l l' : List α}
    (same : ∀ k, l.filter (key · = k) = l'.filter (key · = k)) (x : α) : x ∈ l ↔ x ∈ l' := by
  have mem : x ∈ l.filter (key · = key x) ↔ x ∈ l'.filter (key · = key x) := by rw [same]
  simpa using mem

theorem eq_of_filter_eq (key : α → κ) (rank : κ → Nat) {l l' : List α}
    (apart : ∀ x ∈ l, ∀ y ∈ l', rank (key x) = rank (key y) → key x = key y)
    (sorted : l.Pairwise fun x y => rank (key x) ≤ rank (key y))
    (sorted' : l'.Pairwise fun x y => rank (key x) ≤ rank (key y))
    (same : ∀ k, l.filter (key · = k) = l'.filter (key · = k)) : l = l' := by
  induction l generalizing l' with
  | nil =>
    cases l' with
    | nil => rfl
    | cons y l' => simpa using mem_iff_of_filter_eq same y
  | cons x l ih =>
    cases l' with
    | nil => simpa using mem_iff_of_filter_eq same x
    | cons y l' =>
      obtain ⟨least, tail⟩ := List.pairwise_cons.1 sorted
      obtain ⟨least', tail'⟩ := List.pairwise_cons.1 sorted'
      have le : rank (key x) ≤ rank (key y) := by
        rcases List.mem_cons.1 ((mem_iff_of_filter_eq same y).2 List.mem_cons_self) with eq | mem
        · exact eq ▸ Nat.le_refl _
        · exact least y mem
      have le' : rank (key y) ≤ rank (key x) := by
        rcases List.mem_cons.1 ((mem_iff_of_filter_eq same x).1 List.mem_cons_self) with eq | mem
        · exact eq ▸ Nat.le_refl _
        · exact least' x mem
      have keys : key x = key y :=
        apart x List.mem_cons_self y List.mem_cons_self (Nat.le_antisymm le le')
      obtain rfl : x = y := by
        have heads := same (key x)
        simp only [List.filter_cons, keys, decide_true, if_true] at heads
        exact (List.cons.inj heads).1
      have rest (k : κ) : l.filter (key · = k) = l'.filter (key · = k) := by
        have all := same k
        simp only [List.filter_cons] at all
        split at all
        · exact (List.cons.inj all).2
        · exact all
      rw [ih (fun a ha b hb => apart a (.tail x ha) b (.tail x hb)) tail tail' rest]

omit [DecidableEq κ] in
theorem pairwise_mergeSort (key : α → κ) (rank : κ → Nat) (l : List α) :
    (l.mergeSort fun x y => decide (rank (key x) ≤ rank (key y))).Pairwise fun x y =>
      rank (key x) ≤ rank (key y) := by
  have sorted : (l.mergeSort fun x y => decide (rank (key x) ≤ rank (key y))).Pairwise fun x y =>
      decide (rank (key x) ≤ rank (key y)) = true :=
    List.pairwise_mergeSort (fun _ _ _ => by simpa using Nat.le_trans)
      (fun _ _ => by simpa using Nat.le_total _ _) l
  simpa using sorted

theorem filter_mergeSort (key : α → κ) (rank : κ → Nat) (l : List α) (k : κ) :
    (l.mergeSort fun x y => decide (rank (key x) ≤ rank (key y))).filter (key · = k) =
      l.filter (key · = k) := by
  have equal : (l.filter (key · = k)).Pairwise fun x y =>
      decide (rank (key x) ≤ rank (key y)) = true := by
    apply List.pairwise_of_forall_mem_list
    intro x hx y hy
    have hx : key x = k := by simpa using (List.mem_filter.1 hx).2
    have hy : key y = k := by simpa using (List.mem_filter.1 hy).2
    simp [hx, hy]
  have kept := List.sublist_mergeSort (fun _ _ _ => by simpa using Nat.le_trans)
    (fun _ _ => by simpa using Nat.le_total _ _) equal List.filter_sublist
  have pile := kept.filter (key · = k)
  rw [List.filter_filter] at pile
  simp only [Bool.and_self] at pile
  have perm := List.mergeSort_perm l fun x y => decide (rank (key x) ≤ rank (key y))
  exact (pile.eq_of_length (perm.filter (key · = k)).length_eq.symm).symm

end

def OptionField.insert (retention : Retention) (e : Entry) : List OptionField → List OptionField
  | [] => [⟨e.key.number, retention, [e]⟩]
  | f :: fields =>
    if f.number = e.key.number then { f with entries := f.entries ++ [e] } :: fields
    else f :: OptionField.insert retention e fields

namespace OptionSet

def add (resolve : Resolver) (kind : Kind) (o : OptionSet) (e : Entry) : OptionSet :=
  ⟨OptionField.insert (resolve kind e.key.number) e o.fields⟩

variable (resolve : Resolver) (kind : Kind) (es : List Entry) (e : Entry)

def fieldOf (number : Nat) : OptionField :=
  ⟨number, resolve kind number, es.filter (·.key.number = number)⟩

@[simp] theorem number_fieldOf (number : Nat) : (fieldOf resolve kind es number).number = number := rfl

theorem ofEntries_eq_map :
    ofEntries resolve kind es = ⟨(es.map (·.key.number)).eraseDups.map (fieldOf resolve kind es)⟩ :=
  rfl

variable {e}

theorem fieldOf_concat_of_ne {number : Nat} (other : number ≠ e.key.number) :
    fieldOf resolve kind (es ++ [e]) number = fieldOf resolve kind es number := by
  simp [fieldOf, other.symm]

theorem fieldOf_concat_self :
    fieldOf resolve kind (es ++ [e]) e.key.number =
      ⟨e.key.number, resolve kind e.key.number,
        (fieldOf resolve kind es e.key.number).entries ++ [e]⟩ := by
  simp [fieldOf]

theorem insert_of_mem {numbers : List Nat} (nodup : numbers.Nodup) (known : e.key.number ∈ numbers) :
    OptionField.insert (resolve kind e.key.number) e (numbers.map (fieldOf resolve kind es)) =
      numbers.map (fieldOf resolve kind (es ++ [e])) := by
  induction numbers with
  | nil => cases known
  | cons n numbers ih =>
    obtain ⟨fresh, nodup⟩ := List.nodup_cons.1 nodup
    rw [List.map_cons, List.map_cons, OptionField.insert, number_fieldOf]
    rcases eq_or_ne n e.key.number with rfl | other
    · have rest : numbers.map (fieldOf resolve kind (es ++ [e])) =
          numbers.map (fieldOf resolve kind es) := by
        apply List.map_congr_left
        intro n mem
        exact fieldOf_concat_of_ne resolve kind es fun same => fresh (same ▸ mem)
      rw [if_pos rfl, fieldOf_concat_self, rest]
      rfl
    · rw [if_neg other, fieldOf_concat_of_ne resolve kind es other,
        ih nodup (List.mem_of_ne_of_mem other.symm known)]

theorem insert_of_notMem {numbers : List Nat} (new : e.key.number ∉ numbers)
    (none : e.key.number ∉ es.map (·.key.number)) :
    OptionField.insert (resolve kind e.key.number) e (numbers.map (fieldOf resolve kind es)) =
      (numbers ++ [e.key.number]).map (fieldOf resolve kind (es ++ [e])) := by
  induction numbers with
  | nil =>
    have nothing : es.filter (·.key.number = e.key.number) = [] := by simpa using none
    simp [OptionField.insert, fieldOf, nothing]
  | cons n numbers ih =>
    obtain ⟨other, new⟩ := List.ne_and_not_mem_of_not_mem_cons new
    rw [List.map_cons, OptionField.insert, number_fieldOf, if_neg other.symm, ih new, List.cons_append,
      List.map_cons, fieldOf_concat_of_ne resolve kind es other.symm]

variable (e)

theorem ofEntries_concat :
    ofEntries resolve kind (es ++ [e]) = (ofEntries resolve kind es).add resolve kind e := by
  have numbers : (es ++ [e]).map (·.key.number) = es.map (·.key.number) ++ [e.key.number] := by
    rw [List.map_append, List.map_singleton]
  rw [add, ofEntries_eq_map, ofEntries_eq_map, numbers]
  rcases em (e.key.number ∈ es.map (·.key.number)) with known | new
  · rw [eraseDups_concat_of_mem known,
      insert_of_mem resolve kind es (nodup_eraseDups _) (List.mem_eraseDups.2 known)]
  · rw [eraseDups_concat_of_notMem new,
      insert_of_notMem resolve kind es (mt List.mem_eraseDups.1 new) new]

theorem ofEntries_eq_foldl : ofEntries resolve kind es = es.foldl (add resolve kind) ⟨[]⟩ := by
  induction es using List.reverseRecOn with
  | nil => rfl
  | append_singleton es e ih => rw [ofEntries_concat, ih, List.foldl_concat]

def firstMet (number : Nat) : Nat :=
  (es.map (·.key.number)).idxOf number

theorem pairwise_regroup :
    (regroup es).Pairwise fun x y => firstMet es x.key.number ≤ firstMet es y.key.number := by
  have own {number : Nat} {x : Entry} (mem : x ∈ es.filter (·.key.number = number)) :
      x.key.number = number :=
    of_decide_eq_true (List.mem_filter.1 mem).2
  rw [regroup, List.pairwise_flatMap]
  constructor
  · intro number _
    apply List.pairwise_of_forall_mem_list
    intro x hx y hy
    have same : x.key.number = y.key.number := (own hx).trans (own hy).symm
    exact Nat.le_of_eq (congrArg (firstMet es) same)
  · apply (pairwise_eraseDups (es.map (·.key.number))).imp
    intro number number' before x hx y hy
    rw [own hx, own hy]
    exact Nat.le_of_lt before

theorem regroup_eq_mergeSort :
    regroup es = es.mergeSort fun x y =>
      decide (firstMet es x.key.number ≤ firstMet es y.key.number) := by
  apply eq_of_filter_eq (fun x : Entry => x.key.number) (firstMet es)
  · intro x hx y _ same
    have known : x.key.number ∈ es.map (·.key.number) :=
      List.mem_map_of_mem ((regroup_perm es).mem_iff.1 hx)
    exact (List.idxOf_inj known).1 same
  · exact pairwise_regroup es
  · exact pairwise_mergeSort (fun x : Entry => x.key.number) (firstMet es) es
  · intro number
    rw [filter_regroup]
    exact (filter_mergeSort (fun x : Entry => x.key.number) (firstMet es) es number).symm

/-- Options as a stable regrouping of entries: a field for each number that there is, in the order in
which the numbers are first met, and in each field the bytes of its entries in their order. -/
structure Regroups (o : OptionSet) : Prop where
  numbers : ∀ number, number ∈ o.fields.map (·.number) ↔ ∃ e ∈ es, e.key.number = number
  distinct : (o.fields.map (·.number)).Nodup
  first_met : o.fields.Pairwise fun f g => firstMet es f.number < firstMet es g.number
  encoded : ∀ f ∈ o.fields, f.encoded = (es.filter (·.key.number = f.number)).flatMap (·.raw)
  retention : ∀ f ∈ o.fields, f.retention = resolve kind f.number
  sorted : o.encode = (es.mergeSort fun x y =>
    decide (firstMet es x.key.number ≤ firstMet es y.key.number)).flatMap (·.raw)
  bytes : o.encode.Perm (es.flatMap (·.raw))
  loop : o = es.foldl (add resolve kind) ⟨[]⟩

theorem regroups_ofEntries : Regroups resolve kind es (ofEntries resolve kind es) where
  numbers := by
    intro number
    simp [ofEntries, List.mem_eraseDups]
  distinct := nodup_ofEntries resolve kind es
  first_met := List.pairwise_map.2 (pairwise_eraseDups _)
  encoded := by
    intro f mem
    obtain ⟨number, -, rfl⟩ := List.mem_map.1 mem
    rfl
  retention := by
    intro f mem
    obtain ⟨number, -, rfl⟩ := List.mem_map.1 mem
    rfl
  sorted := by rw [encode_ofEntries, regroup_eq_mergeSort]
  bytes := by
    rw [encode_ofEntries]
    exact (regroup_perm es).flatMap_right _
  loop := ofEntries_eq_foldl resolve kind es

variable {resolve kind es}

theorem decode_encode_self {bytes : List UInt8} {o : OptionSet}
    (h : decode resolve kind bytes = .ok o) : decode resolve kind o.encode = .ok o := by
  obtain ⟨es, -, rfl⟩ := decode_eq_ok_iff.1 h
  rw [(grouped_of_decode h).1.decode_encode, retag_ofEntries]

variable (resolve kind)

theorem exists_decode_iff {bytes : List UInt8} :
    (∃ o, decode resolve kind bytes = .ok o) ↔ Complete bytes := by
  simp only [decode_eq_ok_iff]
  constructor
  · rintro ⟨_, es, row, -⟩
    exact ⟨es, row⟩
  · rintro ⟨es, row⟩
    exact ⟨_, es, row, rfl⟩

theorem decode_regroups (bytes : List UInt8) :
    ((∃ o, decode resolve kind bytes = .ok o) ↔ Complete bytes) ∧
      ∀ o, decode resolve kind bytes = .ok o →
        decode resolve kind o.encode = .ok o ∧
          ∃ es, (∀ es', IsRow bytes es' ↔ es' = es) ∧ Regroups resolve kind es o := by
  refine ⟨exists_decode_iff resolve kind, ?_⟩
  intro o h
  obtain ⟨es, row, rfl⟩ := decode_eq_ok_iff.1 h
  have only (es' : List Entry) : IsRow bytes es' ↔ es' = es := by
    constructor
    · exact fun row' => row'.unique row
    · rintro rfl
      exact row
  exact ⟨decode_encode_self h, es, only, regroups_ofEntries resolve kind es⟩

/-- A group with another number inside, between two entries of one number, the second with a key
that is longer than it need be. -/
def scattered : List UInt8 :=
  [0x28, 0x01] ++ [0x3b, 0x28, 0x02, 0x3c] ++ [0xa8, 0x00, 0x03]

def fiveGoes : Resolver := fun _ number =>
  if number = 5 then .source else .runtime

theorem decode_regroups_scattered :
    ∃ o, decode fiveGoes .field scattered = .ok o ∧
      o.encode = [0x28, 0x01] ++ [0xa8, 0x00, 0x03] ++ [0x3b, 0x28, 0x02, 0x3c] ∧
      ∃ es, (∀ es', IsRow scattered es' ↔ es' = es) ∧ Regroups fiveGoes .field es o := by
  have accepted : decode fiveGoes .field scattered =
      .ok ⟨[⟨5, .source, [⟨⟨5, .varint⟩, .varint 1, [0x28, 0x01]⟩,
          ⟨⟨5, .varint⟩, .varint 3, [0xa8, 0x00, 0x03]⟩]⟩,
        ⟨7, .runtime, [⟨⟨7, .startGroup⟩, .group, [0x3b, 0x28, 0x02, 0x3c]⟩]⟩]⟩ := by decide +kernel
  exact ⟨_, accepted, rfl, ((decode_regroups _ _ _).2 _ accepted).2⟩

end OptionSet

end CompilerPlugin.Descriptor
