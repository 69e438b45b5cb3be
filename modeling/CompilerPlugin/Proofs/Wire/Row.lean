import CompilerPlugin.Proofs.Wire.Varint
import CompilerPlugin.Wire.Split

namespace CompilerPlugin.Wire

inductive GroupBytes (body : Key → Step Body) (number : Nat) : List UInt8 → Prop
  | stop {front} : Reads readKey front ⟨number, .endGroup⟩ → GroupBytes body number front
  | entry {front mid more key b} :
      Reads readKey front key → key.wireType ≠ .endGroup → Reads (body key) mid b →
      GroupBytes body number more → GroupBytes body number (front ++ (mid ++ more))

theorem exists_group_of_untilEndGroup {body : Key → Step Body} (hbody : ∀ key, (body key).Local)
    {number bound : Nat} {i : Input} {le : i.size ≤ bound} {r : { r : Input // r.size < bound }}
    (h : untilEndGroup body number bound i le = .ok r) :
    ∃ front, i.bytes = front ++ r.1.bytes ∧ GroupBytes body number front := by
  induction hn : i.size using Nat.strongRecOn generalizing i with
  | ind n ih =>
    subst hn
    rw [untilEndGroup] at h
    split at h
    · cases h
    · rename_i key r₁ hk
      obtain ⟨front, bytes, hf⟩ := local_readKey (Step.run_of_ok hk)
      split at h
      · rename_i stop
        split at h
        · rename_i same
          cases h
          obtain ⟨n, t⟩ := key
          obtain rfl : t = .endGroup := stop
          obtain rfl : n = number := same
          exact ⟨front, bytes, .stop hf⟩
        · cases h
      · rename_i go
        split at h
        · cases h
        · rename_i b r₂ hb
          obtain ⟨mid, bytes', hm⟩ := hbody key (Step.run_of_ok hb)
          obtain ⟨more, rest, group⟩ := ih r₂.1.size (Nat.lt_trans r₂.2 r₁.2) h rfl
          refine ⟨front ++ (mid ++ more), ?_, .entry hf go hm group⟩
          rw [bytes, bytes', rest]
          simp only [List.append_assoc]

theorem GroupBytes.untilEndGroup {body : Key → Step Body} {number : Nat} {front : List UInt8}
    (h : GroupBytes body number front) (rest : List UInt8) {i : Input} (bytes : i.bytes = front ++ rest)
    {bound : Nat} (le : i.size ≤ bound) :
    ∃ r, Wire.untilEndGroup body number bound i le = .ok r ∧ r.1 = .ofBytes rest := by
  induction h generalizing i with
  | @stop front hf =>
    obtain ⟨r, hr, rest_eq⟩ := Step.run_eq_ok.1 (hf rest)
    obtain rfl : i = .ofBytes (front ++ rest) := Input.ext bytes
    rw [Wire.untilEndGroup]
    simp only [hr, if_true]
    exact ⟨_, rfl, rest_eq⟩
  | @entry front mid more key b hf go hb _ ih =>
    obtain ⟨r, hr, after⟩ := Step.run_eq_ok.1 (hf (mid ++ (more ++ rest)))
    obtain rfl : i = .ofBytes (front ++ (mid ++ (more ++ rest))) := Input.ext (by simp [bytes])
    obtain ⟨j, smaller⟩ := r
    obtain rfl : j = .ofBytes (mid ++ (more ++ rest)) := after
    obtain ⟨⟨k, smaller'⟩, hr', after'⟩ := Step.run_eq_ok.1 (hb (more ++ rest))
    obtain rfl : k = .ofBytes (more ++ rest) := after'
    rw [Wire.untilEndGroup]
    simp only [hr, go, if_false, hr']
    exact ih rfl _

theorem GroupBytes.imp {body body' : Key → Step Body} {number : Nat} {front : List UInt8}
    (h : GroupBytes body number front)
    (more : ∀ key bytes b, Reads (body key) bytes b → Reads (body' key) bytes b) :
    GroupBytes body' number front := by
  induction h with
  | stop hf => exact .stop hf
  | entry hf go hb _ ih => exact .entry hf go (more _ _ _ hb) ih

theorem run_readGroup {body : Key → Step Body} (hbody : ∀ key, (body key).Local) {number : Nat}
    {bytes rest : List UInt8} {b : Body} :
    (readGroup body number).run bytes = .ok (b, rest) ↔
      b = .group ∧ ∃ front, bytes = front ++ rest ∧ GroupBytes body number front := by
  constructor
  · intro h
    obtain ⟨r, hr, rest_eq⟩ := Step.run_eq_ok.1 h
    rw [readGroup] at hr
    split at hr
    · cases hr
    · rename_i hg
      cases hr
      obtain ⟨front, bytes_eq, group⟩ := exists_group_of_untilEndGroup hbody hg
      rw [rest_eq] at bytes_eq
      exact ⟨rfl, front, bytes_eq, group⟩
  · rintro ⟨rfl, front, rfl, group⟩
    obtain ⟨r, hr, rest_eq⟩ :=
      group.untilEndGroup rest (i := .ofBytes (front ++ rest)) rfl (Nat.le_refl _)
    simp only [Step.run, readGroup, hr, rest_eq, Input.bytes_ofBytes]

theorem local_readGroup {body : Key → Step Body} (hbody : ∀ key, (body key).Local) (number : Nat) :
    (readGroup body number).Local := by
  intro bytes rest b h
  obtain ⟨rfl, front, rfl, group⟩ := (run_readGroup hbody).1 h
  exact ⟨front, rfl, fun rest => (run_readGroup hbody).2 ⟨rfl, front, rfl, group⟩⟩

theorem local_readBody (depth : Nat) (key : Key) : (readBody depth key).Local := by
  induction depth generalizing key with
  | zero => exact .fail
  | succ depth ih =>
    rw [readBody]
    cases key.wireType with
    | varint => exact local_readVarint.map
    | sixtyFourBit => exact local_readFixed64.map
    | lengthDelimited => exact local_readDelimited.map
    | startGroup => exact local_readGroup ih key.number
    | endGroup => exact .fail
    | thirtyTwoBit => exact local_readFixed32.map

theorem Reads.body_mono {depth depth' : Nat} (le : depth ≤ depth') {key : Key} {front : List UInt8}
    {b : Body} (h : Reads (readBody depth key) front b) : Reads (readBody depth' key) front b := by
  induction depth generalizing key front b depth' with
  | zero => exact absurd h Reads.not_fail
  | succ depth ih =>
    cases depth' with
    | zero => omega
    | succ depth' =>
      rw [readBody] at h ⊢
      cases shape : key.wireType with
      | startGroup =>
        simp only [shape] at h ⊢
        obtain ⟨rfl, front', eq, group⟩ := (run_readGroup (local_readBody depth)).1 (h [])
        simp only [List.append_nil] at eq
        subst eq
        have group' := group.imp fun _ _ _ => ih (Nat.le_of_succ_le_succ le)
        exact fun rest => (run_readGroup (local_readBody depth')).2 ⟨rfl, front, rfl, group'⟩
      | varint | sixtyFourBit | lengthDelimited | endGroup | thirtyTwoBit => simpa only [shape] using h

namespace Entry

def read (depth : Nat) : Step (Key × Body) :=
  readKey.andThen fun key => (readBody depth key).map fun body => (key, body)

def Fits (depth : Nat) (e : Entry) : Prop :=
  Reads (read depth) e.raw (e.key, e.body)

theorem fits_iff {depth : Nat} {e : Entry} :
    e.Fits depth ↔
      ∃ front mid, e.raw = front ++ mid ∧ Reads readKey front e.key ∧
        Reads (readBody depth e.key) mid e.body := by
  constructor
  · intro h
    obtain ⟨key, front, mid, raw, hk, hb⟩ :=
      h.exists_of_andThen local_readKey fun key => (local_readBody depth key).map
    obtain ⟨body, hb, eq⟩ := (Reads.map_iff (local_readBody depth key)).1 hb
    cases eq
    exact ⟨front, mid, raw, hk, hb⟩
  · rintro ⟨front, mid, raw, hk, hb⟩
    rw [Fits]
    rw [raw]
    exact hk.andThen ((Reads.map_iff (local_readBody depth e.key)).2 ⟨_, hb, rfl⟩)

theorem Fits.mono {depth depth' : Nat} {e : Entry} (h : e.Fits depth) (le : depth ≤ depth') :
    e.Fits depth' := by
  obtain ⟨front, mid, raw, hk, hb⟩ := fits_iff.1 h
  exact fits_iff.2 ⟨front, mid, raw, hk, hb.body_mono le⟩

def delimited (number : Nat) (payload : List UInt8) : Entry :=
  ⟨⟨number, .lengthDelimited⟩, .delimited payload,
    Key.encode ⟨number, .lengthDelimited⟩ ++ encodeDelimited payload⟩

theorem fits_delimited {depth number : Nat} {payload : List UInt8} (pos : number ≠ 0)
    (bound : number < 2 ^ 29) (length : payload.length < 2 ^ 64) :
    (delimited number payload).Fits (depth + 1) := by
  refine fits_iff.2 ⟨_, _, rfl, reads_key pos bound, ?_⟩
  exact (Reads.map_iff local_readDelimited).2 ⟨_, reads_delimited length, rfl⟩

end Entry

theorem splitInput_flatMap {es : List Entry} (h : ∀ e ∈ es, e.Fits maxDepth) {i : Input}
    (bytes : i.bytes = es.flatMap (·.raw)) : splitInput i = (es, .complete) := by
  induction es generalizing i with
  | nil =>
    have empty : i.size = 0 := by rw [← i.size_eq, bytes]; rfl
    rw [splitInput]
    rw [if_pos empty]
  | cons e es ih =>
    have he := h e List.mem_cons_self
    obtain ⟨front, mid, raw, hk, hb⟩ := Entry.fits_iff.1 he
    have nonempty : i.size ≠ 0 := by
      have := Reads.length_pos he
      rw [← i.size_eq, bytes, List.flatMap_cons, List.length_append]
      omega
    obtain rfl : i = .ofBytes (front ++ (mid ++ es.flatMap (·.raw))) :=
      Input.ext (by simp [bytes, raw])
    obtain ⟨⟨j, smaller⟩, hk, j_eq⟩ := Step.run_eq_ok.1 (hk (mid ++ es.flatMap (·.raw)))
    obtain rfl : j = .ofBytes (mid ++ es.flatMap (·.raw)) := j_eq
    obtain ⟨⟨k, smaller'⟩, hb, k_eq⟩ := Step.run_eq_ok.1 (hb (es.flatMap (·.raw)))
    obtain rfl : k = .ofBytes (es.flatMap (·.raw)) := k_eq
    rw [splitInput]
    rw [if_neg nonempty]
    have rest := ih (fun e he => h e (List.mem_cons_of_mem _ he))
      (i := .ofBytes (es.flatMap (·.raw))) rfl
    have taken : (front ++ (mid ++ es.flatMap (·.raw))).take
        ((front ++ (mid ++ es.flatMap (·.raw))).length - (es.flatMap (·.raw)).length) = e.raw := by
      rw [raw, ← List.append_assoc, List.length_append, Nat.add_sub_cancel]
      exact List.take_left' rfl
    simp only [hk, hb, rest, Input.bytes_ofBytes, Input.size_ofBytes, taken]

theorem split_flatMap {es : List Entry} (h : ∀ e ∈ es, e.Fits maxDepth) :
    split (es.flatMap (·.raw)) = (es, .complete) :=
  splitInput_flatMap h rfl

theorem exists_row_of_splitInput {i : Input} {es : List Entry} (h : splitInput i = (es, .complete)) :
    (∀ e ∈ es, e.Fits maxDepth) ∧ i.bytes = es.flatMap (·.raw) := by
  induction hn : i.size using Nat.strongRecOn generalizing i es with
  | ind n ih =>
    subst hn
    rw [splitInput] at h
    split at h
    · rename_i empty
      cases h
      exact ⟨by simp, List.length_eq_zero_iff.1 (i.size_eq.trans empty)⟩
    · split at h
      · cases h
      · rename_i key r hk
        obtain ⟨front, bytes, hf⟩ := local_readKey (Step.run_of_ok hk)
        split at h
        · cases h
        · rename_i body r' hb
          obtain ⟨mid, bytes', hm⟩ := local_readBody maxDepth key (Step.run_of_ok hb)
          rw [Prod.mk.injEq] at h
          obtain ⟨rfl, complete⟩ := h
          obtain ⟨fits, rest⟩ := ih r'.1.size (r.size_lt r') (Prod.ext rfl complete) rfl
          have whole : i.bytes = (front ++ mid) ++ r'.1.bytes := by
            rw [bytes, bytes', List.append_assoc]
          have used : i.size - r'.1.size = (front ++ mid).length := by
            have length := congrArg List.length whole
            rw [List.length_append, i.size_eq, r'.1.size_eq] at length
            omega
          have taken : i.bytes.take (i.size - r'.1.size) = front ++ mid := by
            rw [used, whole]
            exact List.take_left' rfl
          constructor
          · intro e mem
            rcases List.mem_cons.1 mem with rfl | mem
            · exact Entry.fits_iff.2 ⟨front, mid, taken, hf, hm⟩
            · exact fits e mem
          · rw [List.flatMap_cons, ← rest, taken, whole]

theorem split_eq_complete {bytes : List UInt8} {es : List Entry} :
    split bytes = (es, .complete) ↔ (∀ e ∈ es, e.Fits maxDepth) ∧ bytes = es.flatMap (·.raw) := by
  constructor
  · intro h
    exact exists_row_of_splitInput (i := .ofBytes bytes) h
  · rintro ⟨fits, rfl⟩
    exact split_flatMap fits

end CompilerPlugin.Wire
