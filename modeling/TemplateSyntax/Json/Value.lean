import TemplateSyntax.Decimal.Shortest
import TemplateSyntax.Json.Quoted

/-!
# JSON values and their text

An object keeps its fields in the order in which they were given. One printer serves both layouts: a `Style` says
what is written before each item, before a closing bracket and between a key and its value.
-/

namespace TemplateSyntax

open Decimal (Binary64)

/-- A JSON value. Numbers are whole numbers and nonnegative doubles. -/
inductive Json where
  | null
  | bool (b : Bool)
  | nat (n : Nat)
  | double (x : Binary64)
  | str (s : String)
  | arr (items : List Json)
  | obj (fields : List (String × Json))
deriving Inhabited

namespace Json

/-- What is written around the items of an array or object `depth` levels down. -/
structure Style where
  newline : (depth : Nat) → List Char
  colon : List Char

/-- Everything on one line, without blanks. -/
def Style.compact : Style := ⟨fun _ => [], [':']⟩

/-- One item on a line, indented by two blanks for each level. -/
def Style.pretty : Style := ⟨fun depth => '\n' :: List.replicate (2 * depth) ' ', [':', ' ']⟩

/-- A double without a decimal text is written as `null`. -/
def doubleText (x : Binary64) : List Char :=
  x.text?.getD ['n', 'u', 'l', 'l']

mutual

/-- The text of a value, in front of `rest`. -/
def write (style : Style) (depth : Nat) : Json → (rest : List Char) → List Char
  | .null, rest => 'n' :: 'u' :: 'l' :: 'l' :: rest
  | .bool true, rest => 't' :: 'r' :: 'u' :: 'e' :: rest
  | .bool false, rest => 'f' :: 'a' :: 'l' :: 's' :: 'e' :: rest
  | .nat n, rest => Nat.toDigits 10 n ++ rest
  | .double x, rest => doubleText x ++ rest
  | .str s, rest => quoted s ++ rest
  | .arr [], rest => '[' :: ']' :: rest
  | .arr (x :: xs), rest =>
    '[' :: (style.newline (depth + 1) ++ x.write style (depth + 1)
      (writeItems style (depth + 1) xs (style.newline depth ++ ']' :: rest)))
  | .obj [], rest => '{' :: '}' :: rest
  | .obj ((key, x) :: fields), rest =>
    '{' :: (style.newline (depth + 1) ++ (quoted key ++ (style.colon ++ x.write style (depth + 1)
      (writeFields style (depth + 1) fields (style.newline depth ++ '}' :: rest)))))

/-- The items after the first, each after its comma. -/
def writeItems (style : Style) (depth : Nat) : List Json → (rest : List Char) → List Char
  | [], rest => rest
  | x :: xs, rest => ',' :: (style.newline depth ++ x.write style depth (writeItems style depth xs rest))

def writeFields (style : Style) (depth : Nat) : List (String × Json) → (rest : List Char) → List Char
  | [], rest => rest
  | (key, x) :: fields, rest =>
    ',' :: (style.newline depth ++ (quoted key ++ (style.colon ++ x.write style depth
      (writeFields style depth fields rest))))

end

/-! ### What stands in front does not depend on what follows -/

mutual

theorem write_append (style : Style) (depth : Nat) (j : Json) (rest tail : List Char) :
    j.write style depth (rest ++ tail) = j.write style depth rest ++ tail := by
  match j with
  | .null | .bool true | .bool false | .arr [] | .obj [] => simp [write]
  | .nat _ | .double _ | .str _ => simp [write]
  | .arr (x :: xs) => simp [write, ← write_append, ← writeItems_append]
  | .obj ((key, x) :: fields) => simp [write, ← write_append, ← writeFields_append]

theorem writeItems_append (style : Style) (depth : Nat) (xs : List Json) (rest tail : List Char) :
    writeItems style depth xs (rest ++ tail) = writeItems style depth xs rest ++ tail := by
  match xs with
  | [] => rfl
  | x :: xs => simp [writeItems, ← write_append, ← writeItems_append]

theorem writeFields_append (style : Style) (depth : Nat) (fields : List (String × Json)) (rest tail : List Char) :
    writeFields style depth fields (rest ++ tail) = writeFields style depth fields rest ++ tail := by
  match fields with
  | [] => rfl
  | (key, x) :: fields => simp [writeFields, ← write_append, ← writeFields_append]

end

def compact (j : Json) : String :=
  String.ofList (j.write .compact 0 [])

def pretty (j : Json) : String :=
  String.ofList (j.write .pretty 0 [])

/-- The field list of an optional value: nothing when it is absent. -/
def field? (key : String) : Option Json → List (String × Json)
  | none => []
  | some x => [(key, x)]

example : compact (.obj [("a", .arr [.nat 1, .null]), ("b", .obj [])]) =
    "\x7b\"a\":[1,null],\"b\":\x7b\x7d\x7d" := by
  decide

end Json

end TemplateSyntax
