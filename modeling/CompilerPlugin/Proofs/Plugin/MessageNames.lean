import CompilerPlugin.Plugin.MessageNames
import CompilerPlugin.Proofs.Plugin.AllOrNothing
import CompilerPlugin.Proofs.Request.Lookup
import CompilerPlugin.Proofs.Request.Names

namespace CompilerPlugin.Plugin

open Response (Writer Mode Reconciled)

namespace Session

variable {α β : Type} {mode : Mode} {sink : WarningSink} {s s' : Session}

theorem handle_bind_of_ok {h : ExceptT HandlerError Handling α} {a : α}
    (f : α → ExceptT HandlerError Handling β) (done : handle mode sink s h.run = (s', .ok a)) :
    handle mode sink s (h >>= f).run = handle mode sink s' (f a).run := by
  have split := handle_andThen mode sink s h.run (ExceptT.bindCont f)
  rw [done] at split
  exact split

end Session

namespace MessageNames

variable {mode : Mode} {sink : WarningSink} {s : Session}

def listing (d : FileDescriptor) : GeneratedFile :=
  .new (d.name ++ ".txt") (content d)

theorem handle_write {call : Writer.Call} {w : Writer}
    (done : s.writer.perform mode call = ⟨.ok none, [], w⟩) :
    Session.handle mode sink s (write call).run = ({ s with writer := w }, .ok ()) := by
  rw [write, ExceptT.run_mk, Session.handle, Session.follow, done, Session.warn_nil]
  rfl

theorem perform_addFile (mode : Mode) {w : Writer} {name content : String} (opened : w.finalized = false)
    (h : Reconciled (w.files ++ [.new name content])) :
    w.perform mode (.addFile name content) =
      ⟨.ok none, [], w.holding (w.files ++ [.new name content])⟩ := by
  rw [Writer.Call.addFile, Writer.perform, Writer.addFiles, Writer.ifOpen_of_open opened,
    Writer.addRecords_of_reconciled h]
  rfl

theorem handle_listNames {context : Context} (goesOn : context.cancelled = false)
    {ds : List FileDescriptor} (opened : s.writer.finalized = false)
    (h : Reconciled (s.writer.files ++ ds.map listing)) :
    Session.handle mode sink s (listNames context ds).run =
      ({ s with writer := s.writer.holding (s.writer.files ++ ds.map listing) }, .ok ()) := by
  induction ds generalizing s with
  | nil =>
    rw [List.map_nil, List.append_nil, Writer.holding_files]
    rfl
  | cons d rest ih =>
    have split : s.writer.files ++ (d :: rest).map listing =
        s.writer.files ++ [listing d] ++ rest.map listing := by simp
    rw [split] at h ⊢
    have added := perform_addFile mode opened h.of_append
    rw [listNames, goesOn]
    exact (Session.handle_bind_of_ok _ (handle_write added)).trans (ih opened h)

theorem handle_generate (mode : Mode) (sink : WarningSink) (people : Lines) {context : Context}
    {a : Request.Accepted} {ds : List FileDescriptor} (goesOn : context.cancelled = false)
    (targets : a.toGenerate false = .ok ds) (h : Reconciled (ds.map listing)) :
    Session.handle mode sink { stderr := people } (handler context a) =
      ({ writer := Writer.holding { features := ⟨true, false⟩ } (ds.map listing), stderr := people },
        ⟨(), .ok ()⟩) := by
  have generated : Session.handle mode sink { stderr := people } (generate context a).run =
      ({ writer := Writer.holding { features := ⟨true, false⟩ } (ds.map listing), stderr := people },
        .ok ()) := by
    have started : ({} : Writer).perform mode .proto3Optional =
        ⟨.ok none, [], { features := ⟨true, false⟩ }⟩ := rfl
    rw [generate, Session.handle_bind_of_ok _ (handle_write started), targets]
    exact handle_listNames goesOn rfl h
  have ended := Session.handle_andThen mode sink { stderr := people } (generate context a).run
    fun result => .done (⟨(), result⟩ : Ending Unit)
  rw [generated] at ended
  exact ended

theorem reconciled_listings {ds : List FileDescriptor}
    (names : Request.ProtoPaths (ds.map FileDescriptor.name)) : Reconciled (ds.map listing) := by
  constructor
  · intro f mem
    obtain ⟨d, inList, rfl⟩ := List.mem_map.1 mem
    exact (names.canonical d.name (List.mem_map_of_mem inList)).normalize_append
      (by simp [Path.isSeparator]) (by decide)
  · refine List.pairwise_map.2 ((List.pairwise_map.1 names.distinct).imp fun other _ same => other ?_)
    exact (String.append_left_inj ".txt").1 same.symm

theorem finalize_listings (mode : Mode) {files : List GeneratedFile} (h : Reconciled files) :
    let w := Writer.holding { features := ⟨true, false⟩ } files
    w.finalize mode = ⟨.ok { supportedFeatures := some 1, files }, [], { w with finalized := true }⟩ := by
  intro w
  rw [Writer.finalize_eq h, Writer.ifOpen_of_open rfl, Writer.checkSupport_response]
  rfl

theorem run_handler {env : Environment} {options : Options} {a : Request.Accepted}
    {ds : List FileDescriptor} (bare : env.args = []) (sound : env.stdin.fault = none)
    (read : Request.Accepted.ofBytes env.stdin.bytes = .ok a) (reliable : env.stdout.Reliable)
    (targets : a.toGenerate false = .ok ds) (h : Reconciled (ds.map listing)) :
    run env options false handler =
      { result := .ok ()
        stdout := Response.encode { supportedFeatures := some 1, files := ds.map listing }
        stderr := env.stderr
        handled := some () } := by
  have accepted : readRequest env.stdin = .ok a := by
    rw [readRequest, Source.readAll, sound]
    exact read
  have goesOn : Context.cancelled ⟨env.vars, false⟩ = false := rfl
  have handled := handle_generate options.mode options.warnings env.stderr goesOn targets h
  rw [run, bare, versionAsked, accepted]
  simp only [serve, handled, finalize_listings options.mode h, Session.warn_nil, Session.written,
    reliable.writeAll]
  rfl

theorem length_encode_listing_le {size : Nat} {d : FileDescriptor} {p : List UInt8}
    (came : Request.Accepted.EncodesWithin size p d) (bounded : size < 2 ^ 63) :
    (listing d).encode.length ≤ size + 26 := by
  obtain ⟨within, encodes⟩ := came
  have names : d.name.utf8ByteSize + (content d).utf8ByteSize ≤ p.length := d.length_names_le encodes
  have path : (d.name ++ ".txt").utf8ByteSize = d.name.utf8ByteSize + 4 := String.utf8ByteSize_append
  have text {s : String} (small : s.utf8ByteSize < 2 ^ 64) :
      (Value.text s).encode.length ≤ s.utf8ByteSize + 10 := by
    have bytes : s.toByteArray.data.toList.length = s.utf8ByteSize := by simp
    rw [← bytes, Value.encode]
    exact Wire.length_encodeDelimited_le (bytes ▸ small)
  have whole : (listing d).encode.length =
      1 + ((Value.text (d.name ++ ".txt")).encode.length +
        (1 + (Value.text (content d)).encode.length)) := by
    simp [listing, GeneratedFile.encode, GeneratedFile.new, GeneratedFile.toMessage, Message.part?,
      Message.encode, Wire.length_encode_key_of_lt]
  have front := text (s := d.name ++ ".txt") (by omega)
  have rest := text (s := content d) (by omega)
  omega

theorem announceable_listings {size : Nat} {ds : List FileDescriptor} (bounded : size < 2 ^ 63)
    (came : ∀ d ∈ ds, ∃ p, Request.Accepted.EncodesWithin size p d) :
    (Response.toMessage { supportedFeatures := some 1, files := ds.map listing }).Announceable := by
  intro part mem
  have parts : part = (2, .word 1) ∨ ∃ d ∈ ds, part = (15, .message (listing d).toMessage) := by
    simpa [Response.toMessage, Message.part?, Message.parts, eq_comm] using mem
  rcases parts with rfl | ⟨d, inList, rfl⟩
  · exact Nat.lt_of_le_of_lt (Wire.Varint.encode_length_le 1 10 (by omega) (by omega)) (by omega)
  · obtain ⟨p, encodes⟩ := came d inList
    have record := length_encode_listing_le encodes bounded
    have announced := Wire.length_encodeDelimited_le (p := (listing d).encode) (by omega)
    exact Nat.lt_of_le_of_lt announced (by omega)

theorem unique_of_toGenerate {a : Request.Accepted} {ds : List FileDescriptor}
    (targets : a.toGenerate false = .ok ds) {d : FileDescriptor} (mem : d ∈ ds) (d' : FileDescriptor) :
    d' ∈ a.request.protoFiles ∧ d'.name = d.name ↔ d' = d := by
  have distinct := a.contract.protoFiles.names.distinct
  cases targets
  obtain ⟨path, -, found⟩ := List.mem_filterMap.1 mem
  have named := ((Request.Accepted.find?_eq_some_iff distinct).1 found).2
  rw [named, ← Request.Accepted.find?_eq_some_iff distinct, found, Option.some.injEq, eq_comm]

/-- Whatever request there is, every file to generate is answered, in its place, with the names of the
messages in the one descriptor of its name. Nothing is warned of, whichever way the response is judged. -/
theorem run_lists_names (env : Environment) (options : Options) {a : Request.Accepted}
    (bare : env.args = []) (sound : env.stdin.fault = none)
    (read : Request.Accepted.ofBytes env.stdin.bytes = .ok a)
    (bounded : env.stdin.bytes.length < 2 ^ 63) (reliable : env.stdout.Reliable) :
    let report := run env options false handler
    report.result = .ok () ∧ report.warnings = [] ∧ report.stderr = env.stderr ∧
      ∃ files, Response.decode report.stdout =
          .ok { error := none, supportedFeatures := some 1, minimumEdition := none,
                maximumEdition := none, files } ∧
        List.Forall₂ (fun path file => ∃ d,
            (∀ d', d' ∈ a.request.protoFiles ∧ d'.name = path ↔ d' = d) ∧
              file = .new (path ++ ".txt") (String.join (d.messageNames.map (· ++ "\n"))))
          a.filesToGenerate files := by
  intro report
  have plain : ¬ (false = true ∧ a.request.sourceFiles = []) := nofun
  obtain ⟨ds, targets, names, -⟩ := a.exists_toGenerate plain
  have reconciled : Reconciled (ds.map listing) :=
    reconciled_listings (names ▸ a.contract.filesToGenerate)
  have came : ∀ d ∈ ds, ∃ p, Request.Accepted.EncodesWithin env.stdin.bytes.length p d := by
    intro d mem
    have inFiles := ((unique_of_toGenerate targets mem d).2 rfl).1
    obtain ⟨length, each⟩ := List.forall₂_iff_get.1 (Request.Accepted.encodesWithin read).1
    obtain ⟨i, bound, rfl⟩ := List.getElem_of_mem inFiles
    exact ⟨_, each i (length ▸ bound) bound⟩
  have ran : report = _ := run_handler bare sound read reliable targets reconciled
  refine ⟨by rw [ran], by rw [ran], by rw [ran], ds.map listing, ?_, ?_⟩
  · rw [ran]
    exact Response.decode_encode_of_announceable (announceable_listings bounded came)
  · rw [← names, List.forall₂_map_left_iff, List.forall₂_map_right_iff, List.forall₂_same]
    exact fun d mem => ⟨d, unique_of_toGenerate targets mem, rfl⟩

/-- A request for `a.proto`, which has two messages and comes after a file with one. -/
def asking : List UInt8 :=
  [10, 7, 97, 46, 112, 114, 111, 116, 111,
   122, 14, 10, 7, 98, 46, 112, 114, 111, 116, 111, 34, 3, 10, 1, 66,
   122, 21, 10, 7, 97, 46, 112, 114, 111, 116, 111, 34, 4, 10, 2, 65, 49, 34, 4, 10, 2, 65, 50]

theorem run_asking :
    let report := run { stdin := { bytes := asking } } options false handler
    report.result = .ok () ∧ report.warnings = [] ∧
      Response.decode report.stdout =
        .ok { supportedFeatures := some 1, files := [.new "a.proto.txt" "A1\nA2\n"] } := by
  have decoded : Request.decode asking =
      .ok ⟨["a.proto"], none, none, [.ofNames (some "b.proto") none [] ["B"],
        .ofNames (some "a.proto") none [] ["A1", "A2"]], []⟩ := by decide +kernel
  obtain ⟨a, read, request⟩ := Request.Accepted.exists_ofBytes decoded (by rfl)
  obtain ⟨ok, quiet, -, files, written, each⟩ :=
    run_lists_names { stdin := { bytes := asking } } options rfl rfl read (by decide) ⟨rfl, rfl⟩
  rw [Request.Accepted.filesToGenerate, request] at each
  cases each with
  | cons head rest =>
    obtain ⟨d, only, rfl⟩ := head
    cases rest
    have last : FileDescriptor.ofNames (some "a.proto") none [] ["A1", "A2"] = d :=
      (only _).1 ⟨List.mem_cons_of_mem _ List.mem_cons_self, rfl⟩
    subst last
    exact ⟨ok, quiet, written⟩

end MessageNames

end CompilerPlugin.Plugin
