/-!
# JSON values

Objects keep the order of their members and all members of one name, and numbers stay as they are
written. A value is written in front of the text that follows it. The layout decides what stands
between brackets, members and colons; in every layout it is blank.
-/

namespace MathMarkup

inductive Json
  | null
  | bool (value : Bool)
  | number (literal : String)
  | string (value : String)
  | array (items : List Json)
  | object (members : List (String × Json))
  deriving Repr

namespace Json

/-- How far each level is indented, or nothing for a text on one line. -/
abbrev Layout := Option Nat

def compact : Layout := none

def pretty : Layout := some 2

def Layout.break (layout : Layout) (level : Nat) (rest : List Char) : List Char :=
  match layout with
  | none => rest
  | some width => '\n' :: (List.replicate (width * level) ' ' ++ rest)

def Layout.colon (layout : Layout) (rest : List Char) : List Char :=
  match layout with
  | none => ':' :: rest
  | some _ => ':' :: ' ' :: rest

def hexDigit (n : Nat) : Char := (Nat.toDigits 16 n).headD '0'

def escaped (c : Char) (rest : List Char) : List Char :=
  if c = '"' then '\\' :: '"' :: rest
  else if c = '\\' then '\\' :: '\\' :: rest
  else if ' ' ≤ c then c :: rest
  else match c with
    | '\x08' => '\\' :: 'b' :: rest
    | '\t' => '\\' :: 't' :: rest
    | '\n' => '\\' :: 'n' :: rest
    | '\x0c' => '\\' :: 'f' :: rest
    | '\r' => '\\' :: 'r' :: rest
    | c =>
      '\\' :: 'u' :: '0' :: '0' :: hexDigit (c.toNat / 16) :: hexDigit (c.toNat % 16) :: rest

def quoted (s : String) (rest : List Char) : List Char :=
  '"' :: s.toList.foldr escaped ('"' :: rest)

mutual

def write (layout : Layout) (level : Nat) : Json → List Char → List Char
  | null, rest => "null".toList ++ rest
  | bool value, rest => (if value then "true" else "false").toList ++ rest
  | number literal, rest => literal.toList ++ rest
  | string value, rest => quoted value rest
  | array [], rest => '[' :: ']' :: rest
  | array (item :: items), rest =>
    '[' :: layout.break (level + 1)
      (write layout (level + 1) item (writeItems layout level items rest))
  | object [], rest => '\x7b' :: '\x7d' :: rest
  | object ((key, value) :: members), rest =>
    '\x7b' :: layout.break (level + 1)
      (quoted key (layout.colon
        (write layout (level + 1) value (writeMembers layout level members rest))))

def writeItems (layout : Layout) (level : Nat) : List Json → List Char → List Char
  | [], rest => layout.break level (']' :: rest)
  | item :: items, rest =>
    ',' :: layout.break (level + 1)
      (write layout (level + 1) item (writeItems layout level items rest))

def writeMembers (layout : Layout) (level : Nat) : List (String × Json) → List Char → List Char
  | [], rest => layout.break level ('\x7d' :: rest)
  | (key, value) :: members, rest =>
    ',' :: layout.break (level + 1)
      (quoted key (layout.colon
        (write layout (level + 1) value (writeMembers layout level members rest))))

end

def render (layout : Layout) (value : Json) : String :=
  String.ofList (write layout 0 value [])

end Json
end MathMarkup
