import Precedence.Options
import Precedence.Json.Value

/-!
Options as JSON text. They are written with every field, in order; they are read from an object
with some of the fields, or from an array with the first few of them. What is left out keeps its
default, and a member with a name of its own is passed over.
-/
namespace Precedence.Options

/-- Numbers are 64 bits wide. -/
private def count? : Json → Option Nat
  | .number (some n) => if n < 0x10000000000000000 then some n else none
  | _ => none

private def flag? : Json → Option Bool
  | .bool b => some b
  | _ => none

/-- A field by its written name: how its value is written, and how a value read is stored. -/
structure Field where
  name : String
  write : Options → String
  store : Options → Json → Option Options

def fields : List Field :=
  [{ name := "post_ra", write := fun o => toString o.afterAllocation,
     store := fun o v => (flag? v).map o.withAfterAllocation },
   { name := "unit_latencies", write := fun o => toString o.unitLatencies,
     store := fun o v => (flag? v).map o.withUnitLatencies },
   { name := "max_chain_depth", write := fun o => toString o.maxChainDepth,
     store := fun o v => (count? v).map o.withMaxChainDepth },
   { name := "max_rejected", write := fun o => toString o.maxRejected,
     store := fun o v => (count? v).map o.withMaxRejected },
   { name := "analyze_loops", write := fun o => toString o.analyzeLoops,
     store := fun o v => (flag? v).map o.withAnalyzeLoops }]

def text (o : Options) : String :=
  "\x7b" ++ ",".intercalate (fields.map fun f => "\"" ++ f.name ++ "\":" ++ f.write o) ++ "\x7d"

/-- Stores the members of an object. `rest` are the fields not stored yet; a field that is named
twice makes the object unreadable. -/
def ofMembers? (rest : List Field) (o : Options) : List (Option String × Json) → Option Options
  | [] => some o
  | (none, _) :: _ => none
  | (some name, v) :: members =>
      match rest.find? fun f => f.name == name with
      | some f => do
          let o ← f.store o v
          ofMembers? (rest.filter fun g => g.name != name) o members
      | none =>
          if fields.any fun f => f.name == name then none else ofMembers? rest o members

/-- Stores the items of an array in the first fields. -/
def ofItems? : List Field → Options → List Json → Option Options
  | _, o, [] => some o
  | [], _, _ :: _ => none
  | f :: rest, o, v :: items => do
      let o ← f.store o v
      ofItems? rest o items

def ofJson? : Json → Option Options
  | .object members => ofMembers? fields {} members
  | .array items => ofItems? fields {} items
  | _ => none

def ofText? (s : String) : Option Options := do
  let v ← Json.read? s
  ofJson? v

end Precedence.Options
