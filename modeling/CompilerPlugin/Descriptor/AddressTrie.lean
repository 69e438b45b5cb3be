import CompilerPlugin.Descriptor.Kind

namespace CompilerPlugin.Descriptor

inductive AddressTrie where
  | node (marked : Bool) (branches : List (Int × AddressTrie))

namespace AddressTrie

def empty : AddressTrie := node false []

def single : Address → AddressTrie
  | [] => node true []
  | step :: rest => node false [(step, single rest)]

mutual

def insert (address : Address) : AddressTrie → AddressTrie
  | node marked branches =>
    match address with
    | [] => node true branches
    | step :: rest => node marked (insertBranch step rest branches)

def insertBranch (step : Int) (rest : Address) :
    List (Int × AddressTrie) → List (Int × AddressTrie)
  | [] => [(step, single rest)]
  | (s, t) :: more =>
    if s = step then (s, t.insert rest) :: more else (s, t) :: insertBranch step rest more

end

def branch? (step : Int) (branches : List (Int × AddressTrie)) : Option AddressTrie :=
  (branches.find? (·.1 = step)).map (·.2)

def covers : AddressTrie → Address → Bool
  | node marked _, [] => marked
  | node marked branches, step :: rest =>
    marked ||
      match branch? step branches with
      | some t => t.covers rest
      | none => false

def isEmpty : AddressTrie → Bool
  | node marked branches => !marked && branches.isEmpty

def ofList (addresses : List Address) : AddressTrie :=
  addresses.foldl (fun t address => t.insert address) empty

end AddressTrie

end CompilerPlugin.Descriptor
