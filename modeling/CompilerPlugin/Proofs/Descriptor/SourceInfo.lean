import CompilerPlugin.Proofs.Descriptor.Walk
import CompilerPlugin.Proofs.Message.Reading

namespace CompilerPlugin.Descriptor.Tree

def removedSet (t : Tree) : AddressTrie :=
  AddressTrie.empty.insertAll (t.root.removals [])

theorem walk_eq (t : Tree) :
    t.walk = (t.root.plan, (Walk.start t.hasLocations).collect (t.root.removals [])) :=
  Node.strip_eq _ _

theorem pruneLocations_eq_keep {removed : AddressTrie} {info : Message}
    (h : ∀ location ∈ info.messages 1, removed.covers (addressOf location) = false) :
    pruneLocations removed info = .keep := by
  have all : (info.messages 1).filter (fun location => !removed.covers (addressOf location)) =
      info.messages 1 := List.filter_eq_self.2 fun location mem => by simp [h location mem]
  simp [pruneLocations, all]

theorem infoPatch_eq {t : Tree} {info : Message} (h : t.sourceInfo = some info) :
    t.infoPatch = pruneLocations t.removedSet info := by
  rw [infoPatch, removedSet]
  rw [walk_eq, h]
  cases touched : t.root.touched with
  | false =>
    rw [Node.plan_of_not_touched touched, Node.removals_of_not_touched touched, AddressTrie.insertAll_nil,
      pruneLocations_eq_keep fun _ _ => AddressTrie.covers_empty _]
  | true =>
    rw [Node.plan_of_touched touched]
    simp only [hasLocations, h, Walk.start, Walk.collect]
    cases locations : info.messages 1 with
    | nil =>
      rw [pruneLocations_eq_keep (by simp [locations])]
      rfl
    | cons location locations =>
      simp only [List.isEmpty_cons, Bool.not_false, if_true, Option.map_some]
      split
      · rename_i empty
        rw [AddressTrie.isEmpty_insertAll, Bool.and_eq_true] at empty
        have nothing := List.isEmpty_iff.1 empty.2
        rw [nothing, AddressTrie.insertAll_nil, pruneLocations_eq_keep fun _ _ => AddressTrie.covers_empty _]
      · rfl

theorem infoPatch_of_none {t : Tree} (h : t.sourceInfo = none) : t.infoPatch = .keep := by
  rw [infoPatch]
  rw [h]
  split <;> rfl

theorem messages_pruneLocations (removed : AddressTrie) (info : Message) :
    ((pruneLocations removed info).apply (some info)).map (Message.messages · 1) =
      some ((info.messages 1).filter fun location => !removed.covers (addressOf location)) := by
  rw [pruneLocations]
  by_cases all : ((info.messages 1).filter fun location => !removed.covers (addressOf location)).length =
      (info.messages 1).length
  · rw [if_pos all]
    have same := List.filter_eq_self.2 (List.length_filter_eq_length_iff.1 all)
    simp [InfoPatch.apply, same]
  · rw [if_neg all]
    simp [InfoPatch.apply, Message.messages, List.filterMap_map, Function.comp_def, Value.message?]

theorem pruneLocations_eq_keep_iff {removed : AddressTrie} {info : Message} :
    pruneLocations removed info = .keep ↔
      ((info.messages 1).filter fun location => !removed.covers (addressOf location)).length =
        (info.messages 1).length := by
  unfold pruneLocations
  simp only
  split <;> simp [*]

theorem messages_strip (t : Tree) :
    t.strip.sourceInfo.map (Message.messages · 1) =
      t.sourceInfo.map fun info =>
        (info.messages 1).filter fun location => !t.removedSet.covers (addressOf location) := by
  rw [strip]
  simp only
  cases h : t.sourceInfo with
  | none => rw [infoPatch_of_none h]; rfl
  | some info =>
    rw [infoPatch_eq h, messages_pruneLocations]
    rfl

end CompilerPlugin.Descriptor.Tree
