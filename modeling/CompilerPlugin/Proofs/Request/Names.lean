import CompilerPlugin.Proofs.Descriptor.Alike
import CompilerPlugin.Proofs.Descriptor.Declarations
import CompilerPlugin.Proofs.Request.Encoded

namespace CompilerPlugin

open Wire Schema

namespace Message

variable {depth : Nat} {t u : MessageType} {es : List Entry} {m : Message} {f g : Field}

theorem OfRow.length_text_le (h : OfRow depth t [] es m) (fits : ∀ e ∈ es, e.Fits maxDepth)
    (mem : f ∈ t.fields) (label : f.label = .optional) (type : f.type = .scalar .text) :
    ((m.text? f.number).getD "").utf8ByteSize ≤
      ((es.filter (·.key.number = f.number)).flatMap (·.raw)).length := by
  obtain ⟨values, gathers, settled⟩ := h.gathered f mem
  obtain ⟨texts, rfl, payloads⟩ := gathers.exists_texts type
  rw [Field.text?_eq_getLast? label settled]
  cases last : texts.getLast? with
  | none => exact Nat.zero_le _
  | some s =>
    have arrived : s.toByteArray.data.toList ∈
        (es.filter (·.key.number = f.number)).filterMap (·.body.payload?) := by
      rw [payloads]
      exact List.mem_map_of_mem (List.mem_of_getLast? last)
    obtain ⟨e, inRow, payload⟩ := List.mem_filterMap.1 arrived
    have own := (fits e (List.mem_filter.1 inRow).1).length_delimited_le (Body.payload?_eq_some.1 payload)
    have whole := Entry.length_raw_le_of_mem inRow
    have bytes : s.toByteArray.data.toList.length = s.utf8ByteSize := by simp
    rw [Option.getD_some]
    omega

theorem NestedReadsAs.length_text_le (le : depth ≤ maxDepth + 1) {p : List UInt8}
    (h : NestedReadsAs depth t [] p m) (mem : f ∈ t.fields) (label : f.label = .optional)
    (type : f.type = .scalar .text) : ((m.text? f.number).getD "").utf8ByteSize ≤ p.length := by
  cases depth with
  | zero => exact h.elim
  | succ depth =>
    obtain ⟨es, fits, rfl, row⟩ := (readsAs_iff (Nat.le_of_succ_le_succ le)).1 h
    have own := row.length_text_le fits mem label type
    have split := length_filter_flatMap_add es f.number
    omega

theorem OfRow.length_lines_le (le : depth ≤ maxDepth + 1) (h : OfRow depth t [] es m)
    (fits : ∀ e ∈ es, e.Fits maxDepth) (mem : f ∈ t.fields) (label : f.label = .repeated)
    (type : f.type = .message u) (named : g ∈ u.fields) (single : g.label = .optional)
    (text : g.type = .scalar .text) :
    (String.join ((m.messages f.number).map fun m' => (m'.text? g.number).getD "" ++ "\n")).utf8ByteSize ≤
      ((es.filter (·.key.number = f.number)).flatMap (·.raw)).length := by
  obtain ⟨values, gathers, settled⟩ := h.gathered f mem
  obtain ⟨ms, rfl, each⟩ := gathers.exists_messages label type
  have held : m.messages f.number = ms := messages_eq (by rw [settled, Field.settle, label]; rfl)
  have fits' : ∀ e ∈ es.filter (·.key.number = f.number), e.Fits maxDepth :=
    fun e inRow => fits e (List.mem_filter.1 inRow).1
  rw [held]
  clear gathers settled held
  generalize es.filter (·.key.number = f.number) = row at each fits'
  induction each with
  | nil => exact Nat.zero_le _
  | @cons e m' row ms head _ ih =>
    obtain ⟨p, body, reads⟩ := head
    have name := reads.length_text_le le named single text
    have own := (fits' e List.mem_cons_self).length_delimited_le body
    have rest := ih (fun e' mem' => fits' e' (List.mem_cons_of_mem _ mem'))
    have newline : "\n".utf8ByteSize = 1 := rfl
    rw [List.map_cons, String.join_cons, String.utf8ByteSize_append, String.utf8ByteSize_append,
      List.flatMap_cons, List.length_append]
    omega

end Message

namespace FileDescriptor

theorem length_names_le {p : List UInt8} {d : FileDescriptor} (h : Encodes p d) :
    d.name.utf8ByteSize + (String.join (d.messageNames.map (· ++ "\n"))).utf8ByteSize ≤ p.length := by
  obtain ⟨es, fits, rfl, row⟩ := (Message.readsAs_iff (Nat.le_refl _)).1 (Message.decode_eq_ok.1 h)
  have name : d.name.utf8ByteSize ≤ ((es.filter (·.key.number = 1)).flatMap (·.raw)).length :=
    row.length_text_le (f := .one 1 "name" .text) fits (by decide) rfl rfl
  have lines : (String.join (d.messageNames.map (· ++ "\n"))).utf8ByteSize ≤
      ((es.filter (·.key.number = 4)).flatMap (·.raw)).length := by
    rw [messageNames, List.map_map]
    exact row.length_lines_le (f := .subs 4 "message_type" .message) (g := .one 1 "name" .text)
      (Nat.le_succ _) fits (by decide) rfl rfl (by decide) rfl rfl
  have others : (es.filter (·.key.number ≠ 1)).filter (·.key.number = 4) =
      es.filter (·.key.number = 4) := by
    rw [List.filter_filter]
    exact List.filter_congr fun e _ => by by_cases own : e.key.number = 4 <;> simp [own]
  have split := Message.length_filter_flatMap_add es 1
  have split' := Message.length_filter_flatMap_add (es.filter (·.key.number ≠ 1)) 4
  rw [others] at split'
  omega

end FileDescriptor

end CompilerPlugin
