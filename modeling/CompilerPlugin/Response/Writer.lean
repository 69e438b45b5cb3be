import CompilerPlugin.Response.Normalize
import CompilerPlugin.Error

namespace CompilerPlugin.Response

def namesOf (files : List GeneratedFile) : List String :=
  files.foldl (fun names f => names.insert f.nameText) []

/-- The names are kept beside the files, and are theirs in every writer that can be built. -/
structure Writer where
  names : List String := []
  files : List GeneratedFile := []
  error : Option String := none
  features : Features := .none
  minimum : Int32 := 0
  maximum : Int32 := 0
  finalized : Bool := false
  names_eq : names = namesOf files := by rfl

/-- What a call on a writer comes to. The writer after a call that failed may have changed all the
same: a batch of files is added up to the one that is refused. -/
structure Outcome (α : Type) where
  answer : Except Error α
  warnings : List Issue
  writer : Writer

namespace Outcome

variable {α β : Type}

def done (a : α) (w : Writer) : Outcome α :=
  ⟨.ok a, [], w⟩

def refused (e : Error) (w : Writer) : Outcome α :=
  ⟨.error e, [], w⟩

def map (f : α → β) (o : Outcome α) : Outcome β :=
  ⟨o.answer.map f, o.warnings, o.writer⟩

def warned (before : List Issue) (o : Outcome α) : Outcome α :=
  { o with warnings := before ++ o.warnings }

end Outcome

namespace Writer

def new : Writer := {}

def ifOpen {α : Type} (w : Writer) (next : Outcome α) : Outcome α :=
  if w.finalized then .refused .alreadyFinalized w else next

def hasName (w : Writer) (name : String) : Bool :=
  w.names.contains name

def renamed (given name : String) : List Issue :=
  if name ≠ given then [.unnormalizedName given name] else []

def append (w : Writer) (f : GeneratedFile) : Writer :=
  { w with
    names := w.names.insert f.nameText
    files := w.files ++ [f]
    names_eq := by rw [w.names_eq, namesOf, namesOf, List.foldl_append, List.foldl_cons, List.foldl_nil] }

/-- Adds records one by one. Whatever the mode, a name is brought to its canonical form and a plain
file whose name is taken is left out, each with a warning. -/
def addRecords (w : Writer) : List GeneratedFile → Outcome Unit
  | [] => .done () w
  | f :: rest =>
    if f.nameText = "" then .refused (.response .emptyName) w
    else
      match Path.normalize f.nameText with
      | .error e => .refused (.response (.invalidPath e)) w
      | .ok name =>
        if !f.isInsertion && w.hasName name then
          (addRecords w rest).warned (renamed f.nameText name ++ [.duplicateName name])
        else
          (addRecords (w.append { f with name := some name }) rest).warned
            (renamed f.nameText name)

def addFiles (w : Writer) (files : List GeneratedFile) : Outcome Unit :=
  w.ifOpen (w.addRecords files)

/-- Sets the error for the user. An empty one is ignored; a later one replaces it. -/
def setError (w : Writer) (message : String) : Outcome Unit :=
  w.ifOpen (.done () (if message = "" then w else { w with error := some message }))

/-- Changes the features by a mask, which is looked at before anything else. -/
def changeFeatures (w : Writer) (mask : UInt64) (f : Features → Features) : Outcome Unit :=
  match Features.ofBits mask with
  | .error u => .refused (.response (.unknownFeatures u)) w
  | .ok features => w.ifOpen (.done () { w with features := f features })

def setFeatures (w : Writer) (mask : UInt64) : Outcome Unit :=
  w.changeFeatures mask fun given => given

def addFeatures (w : Writer) (mask : UInt64) : Outcome Unit :=
  w.changeFeatures mask w.features.union

def supportEditions (w : Writer) (minimum maximum : Int32) : Outcome Unit :=
  w.ifOpen (.done ()
    { w with features := w.features.union ⟨false, true⟩, minimum, maximum })

def setMinimum (w : Writer) (edition : Int32) : Outcome Unit :=
  w.ifOpen (.done () { w with minimum := edition })

def setMaximum (w : Writer) (edition : Int32) : Outcome Unit :=
  w.ifOpen (.done () { w with maximum := edition })

def nonzero {α : Type} [DecidableEq α] [OfNat α 0] (a : α) : Option α :=
  if a = 0 then none else some a

def response (w : Writer) : Response :=
  { error := w.error
    supportedFeatures := nonzero w.features.bits
    minimumEdition := nonzero w.minimum
    maximumEdition := nonzero w.maximum
    files := w.files }

/-- Judges the response as a whole, and closes the writer whatever comes of it. -/
def finalize (mode : Mode) (w : Writer) : Outcome Response :=
  w.ifOpen
    (let judged := w.response.normalize mode
     ⟨judged.result.mapError .response, judged.warnings, { w with finalized := true }⟩)

inductive Call where
  | addFiles (files : List GeneratedFile)
  | setError (message : String)
  | setFeatures (mask : UInt64)
  | addFeatures (mask : UInt64)
  | supportEditions (minimum maximum : Int32)
  | setMinimum (edition : Int32)
  | setMaximum (edition : Int32)
  | finalize

namespace Call

def addFile (name content : String) : Call :=
  .addFiles [.new name content]

def proto3Optional : Call :=
  .addFeatures (Features.bits ⟨true, false⟩)

end Call

def perform (mode : Mode) (w : Writer) : Call → Outcome (Option Response)
  | .addFiles files => (w.addFiles files).map fun _ => none
  | .setError message => (w.setError message).map fun _ => none
  | .setFeatures mask => (w.setFeatures mask).map fun _ => none
  | .addFeatures mask => (w.addFeatures mask).map fun _ => none
  | .supportEditions minimum maximum => (w.supportEditions minimum maximum).map fun _ => none
  | .setMinimum edition => (w.setMinimum edition).map fun _ => none
  | .setMaximum edition => (w.setMaximum edition).map fun _ => none
  | .finalize => (w.finalize mode).map some

def echo (w : Writer) (warnings : List Issue) : Writer :=
  warnings.foldl (fun w i => (w.setError i.warning).writer) w

def performEchoing (mode : Mode) (w : Writer) (c : Call) : Outcome (Option Response) :=
  let o := w.perform mode c
  { o with writer := o.writer.echo o.warnings }

def performAll (step : Writer → Call → Outcome (Option Response)) (w : Writer) :
    List Call → List (Outcome (Option Response))
  | [] => []
  | c :: rest => step w c :: performAll step (step w c).writer rest

def describe (mode : Mode) : String :=
  "ResponseWriter \x7b mode: " ++ mode.name ++ ", .. \x7d"

end Writer

end CompilerPlugin.Response
