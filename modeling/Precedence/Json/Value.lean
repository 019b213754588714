import Precedence.Json.Token

/-!
JSON values and how they are put together from tokens. Values that are still open stand on a stack,
so nesting has no bound; members keep their order and may repeat a name.
-/
namespace Precedence

inductive Json where
  | null
  | bool (b : Bool)
  | number (value : Option Nat)
  | text (value : Option String)
  | array (items : List Json)
  | object (members : List (Option String × Json))

namespace Json

/-- A value still open: the parts read so far, the last one first. -/
inductive Frame where
  | array (items : List Json)
  | object (members : List (Option String × Json)) (name : Option String)

/-- What is expected next. -/
inductive Phase where
  | value
  /-- a value, or the end of an array that is still empty -/
  | firstItem
  /-- a name, or the end of an object that is still empty -/
  | firstMember
  | member (before : List (Option String × Json))
  | colon (before : List (Option String × Json)) (name : Option String)
  /-- what follows a finished value -/
  | after (v : Json)

/-- The value that one token is. -/
def ofToken? : Token → Option Json
  | .null => some .null
  | .bool b => some (.bool b)
  | .number n => some (.number n)
  | .text s => some (.text s)
  | _ => none

def build : List Frame → Phase → List Token → Option Json
  | [], .after v, [] => some v
  | .array items :: open_, .after v, .comma :: ts => build (.array (v :: items) :: open_) .value ts
  | .array items :: open_, .after v, .closeBracket :: ts =>
      build open_ (.after (.array (v :: items).reverse)) ts
  | .object before name :: open_, .after v, .comma :: ts =>
      build open_ (.member ((name, v) :: before)) ts
  | .object before name :: open_, .after v, .closeBrace :: ts =>
      build open_ (.after (.object ((name, v) :: before).reverse)) ts
  | _, .after _, _ => none
  | .array [] :: open_, .firstItem, .closeBracket :: ts => build open_ (.after (.array [])) ts
  | open_, .firstMember, .closeBrace :: ts => build open_ (.after (.object [])) ts
  | open_, .firstMember, .text name :: ts => build open_ (.colon [] name) ts
  | _, .firstMember, _ => none
  | open_, .member before, .text name :: ts => build open_ (.colon before name) ts
  | _, .member _, _ => none
  | open_, .colon before name, .colon :: ts => build (.object before name :: open_) .value ts
  | _, .colon _ _, _ => none
  | open_, _, .openBracket :: ts => build (.array [] :: open_) .firstItem ts
  | open_, _, .openBrace :: ts => build open_ .firstMember ts
  | open_, _, t :: ts =>
      match ofToken? t with
      | some v => build open_ (.after v) ts
      | none => none
  | _, _, [] => none
termination_by structural _ _ ts => ts

/-- The value that a text writes, blanks around it aside. -/
def read? (s : String) : Option Json := do
  let ts ← tokens s.toList
  build [] .value ts

end Json

end Precedence
