/-
# Loaded configuration files

The value of a YAML file as the loader builds it, and the operations of the
language on such a value that the configuration code applies to it: membership,
item access, the entries of a mapping, truth and text.  A value of an unexpected
kind makes them raise, as it does there.

Mappings have texts as their keys.
-/
import Ptolemy.Value

/-- A loaded value. -/
inductive Yaml : Type where
  | null : Yaml
  | bool (b : Bool) : Yaml
  | int (n : Int) : Yaml
  /-- A float, identified by its text. -/
  | float (text : String) : Yaml
  | str (s : String) : Yaml
  | list (items : List Yaml) : Yaml
  | dict (entries : List (String × Yaml)) : Yaml
  deriving Repr, Inhabited

namespace Yaml

/-! ## Truth and text -/

/-- `bool(this)`. -/
def truthy : Yaml → Bool
  | null => false
  | bool b => b
  | int n => n ≠ 0
  | float text => text ≠ "0.0" ∧ text ≠ "-0.0"
  | str s => s ≠ ""
  | list items => !items.isEmpty
  | dict entries => !entries.isEmpty

/-- A character between the quotes of a text's representation. -/
def reprChar (quote : Char) (c : Char) : String :=
  let hex (width : Nat) : String :=
    String.ofList (List.replicate (width - (Nat.toDigits 16 c.toNat).length) '0'
      ++ Nat.toDigits 16 c.toNat)
  if c = quote ∨ c = '\\' then "\\" ++ c.toString
  else if c = '\n' then "\\n"
  else if c = '\r' then "\\r"
  else if c = '\t' then "\\t"
  else if 32 ≤ c.toNat ∧ c.toNat < 127 then c.toString
  else if c.toNat < 256 then "\\x" ++ hex 2
  else if c.toNat < 65536 then "\\u" ++ hex 4
  else "\\U" ++ hex 8

/-- `repr(s)`: a text with characters beyond ASCII is marked with a `u`. -/
def reprStr (s : String) : String :=
  let quote := if s.toList.contains '\'' ∧ ¬ s.toList.contains '"' then '"' else '\''
  (if s.toList.all (fun c => c.toNat < 128) then "" else "u") ++ quote.toString
    ++ String.join (s.toList.map (reprChar quote)) ++ quote.toString

mutual

/-- `repr(this)`. -/
def repr : Yaml → String
  | null => "None"
  | bool b => if b then "True" else "False"
  | int n => toString n
  | float text => text
  | str s => reprStr s
  | list items => "[" ++ Text.join ", " (reprItems items) ++ "]"
  | dict entries => "\x7b" ++ Text.join ", " (reprEntries entries) ++ "\x7d"

def reprItems : List Yaml → List String
  | [] => []
  | x :: xs => repr x :: reprItems xs

def reprEntries : List (String × Yaml) → List String
  | [] => []
  | (k, v) :: es => (reprStr k ++ ": " ++ repr v) :: reprEntries es

end

/-- `str(this)`, which raises on a text with characters beyond ASCII. -/
def toText : Yaml → Except Exn String
  | str s =>
      if s.toList.all (fun c => c.toNat < 128) then .ok s
      else .error (.valueError "'ascii' codec can't encode characters")
  | this => .ok (repr this)

/-! ## Items -/

/-- `k in this`. -/
def hasKey (k : String) : Yaml → Except Exn Bool
  | dict entries => .ok (entries.lookup k).isSome
  | list items => .ok (items.any (fun | str s => s = k | _ => false))
  | str s => .ok (s.toList.tails.any (fun rest => k.toList.isPrefixOf rest))
  | _ => .error (.typeError "argument is not iterable")

/-- `this[k]`. -/
def getKey (k : String) : Yaml → Except Exn Yaml
  | dict entries =>
      match entries.lookup k with
      | some v => .ok v
      | none => .error (.keyError k)
  | list _ => .error (.typeError "list indices must be integers, not str")
  | str _ => .error (.typeError "string indices must be integers, not str")
  | _ => .error (.typeError "object has no attribute '__getitem__'")

/-- The entries of a mapping after `this[k] = v`. -/
def setEntry (k : String) (v : Yaml) : List (String × Yaml) → List (String × Yaml)
  | [] => [(k, v)]
  | (k', v') :: es => if k' = k then (k, v) :: es else (k', v') :: setEntry k v es

/-- `this[k] = v`. -/
def setKey (k : String) (v : Yaml) : Yaml → Except Exn Yaml
  | dict entries => .ok (dict (setEntry k v entries))
  | _ => .error (.typeError "object does not support item assignment")

/-- `this.iteritems()`. -/
def iteritems : Yaml → Except Exn (List (String × Yaml))
  | dict entries => .ok entries
  | _ => .error (.attributeError "object has no attribute 'iteritems'")

/-- `n in this` for a value `n` of any kind, of which only the exception matters. -/
def checkIn (this n : Yaml) : Except Exn Unit :=
  match this, n with
  | dict _, list _ => .error (.typeError "unhashable type: 'list'")
  | dict _, dict _ => .error (.typeError "unhashable type: 'dict'")
  | dict _, _ => .ok ()
  | list _, _ => .ok ()
  | str _, str _ => .ok ()
  | str _, _ => .error (.typeError "'in <string>' requires string as left operand")
  | _, _ => .error (.typeError "argument is not iterable")

/-- The entries of `this[n]`, for a value `n` of any kind; none where `this[n].iteritems()`
raises. -/
def entriesAt (this n : Yaml) : Option (List (String × Yaml)) :=
  let item : Option Yaml :=
    match this, n with
    | dict entries, str k => entries.lookup k
    | list items, int i => if 0 ≤ i then items[i.toNat]? else items.reverse[(-i - 1).toNat]?
    | list items, bool b => items[b.toNat]?
    | _, _ => none
  match item with
  | some (dict entries) => some entries
  | _ => none

end Yaml
