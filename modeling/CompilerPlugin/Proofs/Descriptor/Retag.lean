import CompilerPlugin.Proofs.Descriptor.FromRow
import CompilerPlugin.Proofs.Descriptor.MapOptions

namespace CompilerPlugin.Descriptor

open Wire

namespace OptionSet

def retag (resolve : Resolver) (kind : Kind) (o : OptionSet) : OptionSet :=
  ⟨o.fields.map fun f => { f with retention := resolve kind f.number }⟩

@[simp] theorem encode_retag (resolve : Resolver) (kind : Kind) (o : OptionSet) :
    (o.retag resolve kind).encode = o.encode := by
  simp [retag, encode, OptionField.encoded, List.flatMap_map]

theorem retag_ofEntries (resolve resolve' : Resolver) (kind : Kind) (es : List Entry) :
    (ofEntries resolve kind es).retag resolve' kind = ofEntries resolve' kind es := by
  simp [retag, ofEntries, Function.comp_def]

end OptionSet

def retagOptions (resolve : Resolver) (kind : Kind) (options : Option OptionSet) : Option OptionSet :=
  options.map (·.retag resolve kind)

theorem readOptions_retag {resolve : Resolver} (resolve' : Resolver) {kind : Kind} {es : List Entry}
    {options : Option OptionSet} (h : kind.readOptions resolve es = .ok options) :
    kind.readOptions resolve' es = .ok (retagOptions resolve' kind options) := by
  rcases readOptions_eq_ok_iff.1 h with ⟨none, rfl⟩ | ⟨given, row, is_row, rfl⟩
  · exact readOptions_eq_ok_iff.2 (.inl ⟨none, rfl⟩)
  · refine readOptions_eq_ok_iff.2 (.inr ⟨given, row, is_row, ?_⟩)
    rw [retagOptions, Option.map_some, OptionSet.retag_ofEntries]

theorem Kind.arrange_map (kind : Kind) (children : List (Slot × Node)) (f : Node → Node) :
    kind.arrange (children.map fun child => (child.1, f child.2)) =
      (kind.arrange children).map fun row => (row.1, row.2.map f) := by
  simp only [arrange, List.map_map, Function.comp_def, List.filterMap_map, List.map_filterMap]
  apply List.map_congr_left
  intro slot _
  congr 1
  apply List.filterMap_congr
  intro child _
  split <;> rfl

namespace Node

def retag (resolve : Resolver) (n : Node) : Node :=
  n.mapOptions (retagOptions resolve)

theorem decode_retag {resolve : Resolver} (resolve' : Resolver) {kind : Kind} {bytes : List UInt8}
    {n : Node} (h : decode resolve kind bytes = .ok n) :
    decode resolve' kind bytes = .ok (n.retag resolve') := by
  refine decode_induction (P := fun kind bytes n => decode resolve' kind bytes = .ok (n.retag resolve'))
    ?_ h
  intro kind es n row child
  have same : childrenOf (nodeOf resolve') kind es =
      (childrenOf (nodeOf resolve) kind es).map fun child => (child.1, child.2.retag resolve') := by
    rw [childrenOf, childrenOf, List.map_map]
    apply List.map_congr_left
    intro c mem
    rw [nodeOf_eq (child c mem)]
    rfl
  refine FromRow.decode_eq_ok ⟨row.fits, ?_, ?_, ?_, ?_, ?_⟩
  · rw [retag, kind_mapOptions, row.kind_eq]
  · rw [retag, record_mapOptions]
    exact row.record
  · rw [retag, options_mapOptions, row.kind_eq]
    exact readOptions_retag resolve' row.options
  · intro c mem
    rw [child c mem, nodeOf_eq (child c mem)]
  · rw [same, Kind.arrange_map, ← row.rows, retag, rows_mapOptions]
    rfl

@[simp] theorem retag_retag (resolve resolve' : Resolver) (n : Node) :
    (n.retag resolve).retag resolve' = n.retag resolve' := by
  rw [retag, retag, mapOptions_mapOptions, retag]
  congr 1
  funext kind options
  cases options <;> simp [retagOptions, OptionSet.retag, Function.comp_def]

end Node

namespace Tree

def retag (resolve : Resolver) (t : Tree) : Tree :=
  ⟨t.root.retag resolve, t.sourceInfo⟩

theorem decode_retag {resolve : Resolver} (resolve' : Resolver) {bytes : List UInt8} {t : Tree}
    (h : decode resolve bytes = .ok t) : decode resolve' bytes = .ok (t.retag resolve') := by
  obtain ⟨n, hn, rfl⟩ := decode_eq_ok_iff.1 h
  refine decode_eq_ok_iff.2 ⟨_, Node.decode_retag resolve' hn, ?_⟩
  obtain ⟨kind, record, options, rows⟩ := n
  simp only [ofNode, retag, Node.retag, Node.mapOptions_mk]

theorem retag_eq_self {resolve : Resolver} {bytes : List UInt8} {t : Tree}
    (h : decode resolve bytes = .ok t) : t.retag resolve = t := by
  have again := decode_retag resolve h
  rw [h] at again
  exact (Except.ok.inj again).symm

theorem retag_retag (resolve resolve' : Resolver) (t : Tree) :
    (t.retag resolve).retag resolve' = t.retag resolve' := by
  rw [retag, retag, Node.retag_retag, retag]

end Tree

end CompilerPlugin.Descriptor
