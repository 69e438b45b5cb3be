import CompilerPlugin.Proofs.Descriptor.OptionSet
import CompilerPlugin.Proofs.Descriptor.Remaining
import CompilerPlugin.Proofs.Descriptor.Retag
import CompilerPlugin.Proofs.Descriptor.Shape

namespace CompilerPlugin.Descriptor

open Wire

structure OptionField.Sound (f : OptionField) : Prop where
  given : f.entries ≠ []
  number : ∀ e ∈ f.entries, e.key.number = f.number
  fits : ∀ e ∈ f.entries, e.Fits maxDepth

section

variable {fields : List OptionField}

theorem filter_flatMap_entries (sound : ∀ f ∈ fields, f.Sound)
    (nodup : (fields.map (·.number)).Nodup) {f : OptionField} (mem : f ∈ fields) :
    (fields.flatMap (·.entries)).filter (·.key.number = f.number) = f.entries := by
  have other {g : OptionField} (hg : g ∈ fields) (ne : g.number ≠ f.number) :
      g.entries.filter (·.key.number = f.number) = [] := by
    apply List.filter_eq_nil_iff.2
    intro e he
    rwa [decide_eq_true_iff, (sound g hg).number e he]
  have all : f.entries.filter (·.key.number = f.number) = f.entries := by
    apply List.filter_eq_self.2
    intro e he
    simpa using (sound f mem).number e he
  induction fields with
  | nil => cases mem
  | cons g fields ih =>
    obtain ⟨fresh, nodup⟩ := List.nodup_cons.1 nodup
    have tail (h : OptionField) (hh : h ∈ fields) := List.mem_cons_of_mem g hh
    rw [List.flatMap_cons, List.filter_append]
    rcases List.mem_cons.1 mem with rfl | mem
    · have none : (fields.flatMap (·.entries)).filter (·.key.number = f.number) = [] := by
        rw [List.filter_flatMap]
        apply List.flatMap_eq_nil_iff.2
        intro h hh
        apply other (tail h hh)
        intro same
        exact fresh (List.mem_map.2 ⟨h, hh, same⟩)
      rw [all, none, List.append_nil]
    · have ne : g.number ≠ f.number := fun same => fresh (List.mem_map.2 ⟨f, mem, same.symm⟩)
      rw [other List.mem_cons_self ne, List.nil_append]
      exact ih (fun h hh => sound h (tail h hh)) nodup mem fun hg => other (tail _ hg)

theorem eraseDups_numbers (sound : ∀ f ∈ fields, f.Sound)
    (nodup : (fields.map (·.number)).Nodup) :
    ((fields.flatMap (·.entries)).map (·.key.number)).eraseDups = fields.map (·.number) := by
  induction fields with
  | nil => rfl
  | cons f fields ih =>
    obtain ⟨fresh, nodup⟩ := List.nodup_cons.1 nodup
    have rest := ih (fun g mem => sound g (List.mem_cons_of_mem _ mem)) nodup
    obtain ⟨given, number, -⟩ := sound f List.mem_cons_self
    have own : f.entries.map (·.key.number) = f.entries.map fun _ => f.number :=
      List.map_congr_left number
    obtain ⟨e, es, eq⟩ := List.exists_cons_of_ne_nil given
    have others : ((fields.flatMap (·.entries)).map (·.key.number)).filter (fun n => !n == f.number) =
        (fields.flatMap (·.entries)).map (·.key.number) := by
      apply List.filter_eq_self.2
      intro n mem
      obtain ⟨e', he', rfl⟩ := List.mem_map.1 mem
      obtain ⟨g, hg, he'⟩ := List.mem_flatMap.1 he'
      rw [(sound g (List.mem_cons_of_mem _ hg)).number e' he']
      have ne : g.number ≠ f.number := fun same => fresh (List.mem_map.2 ⟨g, hg, same⟩)
      simpa using ne
    have again : (es.map fun _ => f.number).filter (fun n => !n == f.number) = [] := by
      simp
    rw [List.flatMap_cons, List.map_append, own, eq, List.map_cons, List.cons_append,
      List.eraseDups_cons, List.filter_append, again, others, List.nil_append, rest, List.map_cons]

end

namespace OptionSet

structure Grouped (o : OptionSet) : Prop where
  nodup : (o.fields.map (·.number)).Nodup
  sound : ∀ f ∈ o.fields, f.Sound

def entries (o : OptionSet) : List Entry :=
  o.fields.flatMap (·.entries)

theorem encode_eq_entries (o : OptionSet) : o.encode = o.entries.flatMap (·.raw) := by
  simp [encode, entries, OptionField.encoded, List.flatMap_assoc]

theorem Grouped.fits {o : OptionSet} (h : o.Grouped) : ∀ e ∈ o.entries, e.Fits maxDepth := by
  intro e mem
  obtain ⟨f, hf, he⟩ := List.mem_flatMap.1 mem
  exact (h.sound f hf).fits e he

theorem grouped_ofEntries (resolve : Resolver) (kind : Kind) {es : List Entry}
    (fits : ∀ e ∈ es, e.Fits maxDepth) : (ofEntries resolve kind es).Grouped := by
  refine ⟨nodup_ofEntries resolve kind es, ?_⟩
  intro f mem
  obtain ⟨number, present, rfl⟩ := List.mem_map.1 mem
  rw [List.mem_eraseDups] at present
  obtain ⟨e, he, rfl⟩ := List.mem_map.1 present
  refine ⟨List.ne_nil_of_mem (List.mem_filter.2 ⟨he, by simp⟩), ?_, ?_⟩
  · exact fun e' mem => of_decide_eq_true (List.mem_filter.1 mem).2
  · exact fun e' mem => fits e' (List.mem_filter.1 mem).1

theorem grouped_of_decode {resolve : Resolver} {kind : Kind} {bytes : List UInt8} {o : OptionSet}
    (h : decode resolve kind bytes = .ok o) : o.Grouped ∧ o.encode.length = bytes.length := by
  obtain ⟨es, row, rfl⟩ := decode_eq_ok_iff.1 h
  obtain ⟨fits, rfl⟩ := isRow_iff.1 row
  exact ⟨grouped_ofEntries resolve kind fits, length_encode_ofEntries resolve kind es⟩

theorem Grouped.ofEntries_entries {o : OptionSet} (h : o.Grouped) (resolve : Resolver) (kind : Kind) :
    ofEntries resolve kind o.entries = o.retag resolve kind := by
  rw [ofEntries, retag, entries, eraseDups_numbers h.sound h.nodup, List.map_map]
  congr 1
  apply List.map_congr_left
  intro f mem
  rw [Function.comp_apply, filter_flatMap_entries h.sound h.nodup mem]

theorem Grouped.decode_encode {o : OptionSet} (h : o.Grouped) (resolve : Resolver) (kind : Kind) :
    decode resolve kind o.encode = .ok (o.retag resolve kind) := by
  rw [encode_eq_entries, decode_flatMap resolve kind h.fits, h.ofEntries_entries]

theorem Grouped.filter {o : OptionSet} (h : o.Grouped) (keep : OptionField → Bool) :
    Grouped ⟨o.fields.filter keep⟩ where
  nodup := h.nodup.sublist (List.filter_sublist.map _)
  sound f mem := h.sound f (List.mem_filter.1 mem).1

theorem Grouped.retag {o : OptionSet} (h : o.Grouped) (resolve : Resolver) (kind : Kind) :
    (o.retag resolve kind).Grouped where
  nodup := by simpa [OptionSet.retag, Function.comp_def] using h.nodup
  sound f mem := by
    obtain ⟨g, hg, rfl⟩ := List.mem_map.1 mem
    exact ⟨(h.sound g hg).given, (h.sound g hg).number, (h.sound g hg).fits⟩

end OptionSet

end CompilerPlugin.Descriptor
