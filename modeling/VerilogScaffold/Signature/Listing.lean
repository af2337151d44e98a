import VerilogScaffold.Signature.Basic

/-!
# Listings of signatures

A listing shows a signature to people: the module's name, then what it declares, group by group and
a line each. Groups with nothing in them are left out.
-/

namespace VerilogScaffold

/-- A group of a listing: its title and a line for each entry. -/
def listingGroup (title : String) (entries : List String) : String :=
  if entries.isEmpty then ""
  else "  " ++ title ++ ":\n" ++ String.join (entries.map fun e => "    " ++ e ++ "\n")

/-- A parameter in a listing. -/
def Parameter.listed (p : Parameter) : String := p.name ++ " = " ++ p.value

/-- A port in a listing, after its range if it has one. -/
def Port.listed (p : Port) : String := if p.isScalar then p.name else p.range ++ " " ++ p.name

/-- The listing of a signature. -/
def Signature.listing (s : Signature) : String :=
  "module " ++ s.name ++ "\n" ++ listingGroup "parameters" (s.parameters.map Parameter.listed) ++
    String.join (Direction.all.map fun d =>
      listingGroup (d.keyword ++ "s") ((s.ports d).map Port.listed))

end VerilogScaffold
