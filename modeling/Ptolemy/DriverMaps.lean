/-
# The maps of a driver

A driver lists definitions: each names an output field, the raw column that it is made
from, and maps that are applied to it.  `Driver.remap` checks that the column is there,
renames it, and runs the maps; these work in place on the dataset that all
definitions share.

Regular expressions, floating point arithmetic and the functions a driver names are
parameters.  The objects that maps hand back matter where a `KeyError` is caught:
`Call` says what the object that a map was given holds afterwards, and which object it
returns in its place.
-/
import Ptolemy.PostRemap

namespace DriverMaps

open Driver (truthy valueEq)

/-! ## Datasets -/

/-- The values of one field by index. -/
abbrev Column : Type := Dict Value Value

/-- The columns by name, raw and output names alike. -/
abbrev Dataset : Type := Dict String Column

/-- What the maps work on: a dataset, or the list that `to_array` puts in its place. -/
inductive Data : Type where
  | dataset (d : Dataset)
  | array (l : List Value)

/-- The processed groups: rows by index, or columns by field. -/
abbrev Results : Type := Dict String (Dict Value Column)

/-- What the maps use from elsewhere, and the order in which dictionaries are gone through. -/
structure Env : Type 1 where
  /-- `search(pattern, text)`; it raises for a malformed pattern. -/
  search : String → String → Except String Bool
  /-- `match(pattern, item).groupdict()`; it raises for a malformed pattern or another item than
  a text. -/
  match? : String → Value → Except String (Option (Dict String Value))
  /-- `globals()[func](v)`, where it does not raise. -/
  call : String → Value → Option Value
  /-- `globals()[func](data)` for a group: what it does to the data, and the column it returns
  where it does not raise.  It raises for a list. -/
  groupCall : String → Dataset → Dataset × Option Column
  /-- `globals()[func](data)` for the dataset: what it does to the data, and what it returns
  (`some none` for the data itself) where it does not raise.  It raises for a list. -/
  datasetCall : String → Dataset → Dataset × Option (Option Data)
  /-- `float(v) / float(w)`, where it does not raise. -/
  divide : Value → Value → Option Value
  /-- `float(v) * float(w)`, where it does not raise. -/
  multiply : Value → Value → Option Value
  order : IterOrder

/-- Nothing is found or matches, and no function returns. -/
def bareEnv : Env where
  search := fun _ _ => .ok false
  match? := fun _ _ => .ok none
  call := fun _ _ => none
  groupCall := fun _ d => (d, none)
  datasetCall := fun _ d => (d, none)
  divide := fun _ _ => none
  multiply := fun _ _ => none
  order := .stored

/-- `m[v]` for a mapping of the driver. -/
def mapped (m : Dict Value Value) (v : Value) : Option Value :=
  (m.items.find? (fun p => valueEq p.1 v)).map Prod.snd

/-- `v` as the key of a dictionary. -/
def hashed : Value → Except Exn Value
  | .list _ => .error (.typeError "unhashable type: 'list'")
  | v => .ok v

/-- `s in v`. -/
def contains (v : Value) (s : String) : Except Exn Bool :=
  match v with
  | .str t => .ok (decide (s.toList <:+: t.toList))
  | .list l => .ok (decide (s ∈ l))
  | _ => .error (.typeError "argument is not iterable")

/-- `s.partition(cc)` on characters, for a separator of two equal ones. -/
def partitionDouble (c : Char) : List Char → List Char × List Char
  | a :: b :: s =>
      if a = c ∧ b = c then ([], s)
      else ((a :: (partitionDouble c (b :: s)).1), (partitionDouble c (b :: s)).2)
  | s => (s, [])

/-! ## Calls -/

/-- How a call on the data ends: what the object that it was given holds, and the object that it
returns in its place (`none` for the same one), or what it raises. -/
structure Call : Type where
  given : Data
  result : Except Exn (Option Data)

namespace Call

/-- Returning the object that was given. -/
def same (d : Data) : Call := ⟨d, .ok none⟩

/-- `result = f(result)`. -/
def andThen (c : Call) (f : Data → Call) : Call :=
  match c.result with
  | .error e => ⟨c.given, .error e⟩
  | .ok none => f c.given
  | .ok (some d) =>
      ⟨c.given, match (f d).result with
        | .error e => .error e
        | .ok new => .ok (some (new.getD (f d).given))⟩

/-- A map that works in place.  One that raises a `KeyError` has changed nothing yet, and what
another exception leaves is not looked at. -/
def inPlace (d : Dataset) : Except Exn Dataset → Call
  | .ok d' => ⟨.dataset d', .ok none⟩
  | .error e => ⟨.dataset d, .error e⟩

end Call

variable (env : Env)

/-- A loop over the items that a column has when the loop begins. -/
def forItems (step : Column → Value → Value → Except Exn Column) (c : Column) :
    Except Exn Column :=
  (env.order.order c.items).foldlM (fun c p => step c p.1 p.2) c

/-- Working on `data[name]`. -/
def onColumn (data : Dataset) (name : String) (f : Column → Except Exn Column) :
    Except Exn Dataset :=
  match data.lookup name with
  | none => .error (.keyError name)
  | some c => (f c).map (fun c' => AList.insert name c' data)

/-! ## The maps -/

/-- The mapping of a `value_sub`. -/
inductive ValueSub : Type where
  | dict (mapping : Dict Value Value)
  | ref (r : String)
  | parent_ref (ref : String)
  | set (s : Value)
  | prefixed (s : Value)
  | unknown (text : String)

/-- One map: an entry of `PROCESS_BY_MAP` with its definition. -/
inductive MapDef : Type where
  | key_sub (ref : Option String)
  | value_sub (defn : ValueSub)
  | regexp (y pattern : String)
  | extract_from_key (regexp : Option String)
  | function (y func : String)
  | value_math (func : Option String) (value : Value)
  | to_array
  | filter (y : String) (mapping : Dict Value Value)
  | set_value_as_key
  | swap_keys_and_values
  | merge_defs (defn : Dict String (List Value))
  | unknown (name : String)

def _process_by_field_rename (data : Dataset) (name frm : String) (required : Option Bool) :
    Except Exn Dataset :=
  match data.lookup frm with
  | none =>
      if required = some false then .ok data
      else .error (.refNotFound ("required variable " ++ frm ++ " is not in data"))
  | some this => .ok (AList.insert name this (AList.erase frm data))

def _process_by_key_remap (data : Dataset) (name : String) (ref : Option String) :
    Except Exn Dataset :=
  match ref with
  | none => .error (.keyError "ref")
  | some ref => match data.lookup ref with
    | none => .error (.refNotFound ("request remapping using ref " ++ ref ++ " (not in data)"))
    | some r => onColumn data name (fun c =>
        (env.order.order c.items).foldlM (fun this p =>
          match r.lookup (.str p.1.toText) with
          | some k => (hashed k).map (fun k => AList.insert k p.2 this)
          | none => .ok this) ∅)

/-- The first entry of a mapping whose key is found in a text. -/
def firstFound (text : String) : List (Value × Value) → Except Exn (Option Value)
  | [] => .ok none
  | p :: l => match env.search p.1.toText text with
    | .error e => .error (.exception e)
    | .ok true => .ok (some p.2)
    | .ok false => firstFound text l

/-- What a mapping makes of a value: the entry of the value itself, else the first one found in
its text, else the one of `other`. -/
def substitute (mapping : Dict Value Value) (v : Value) : Except Exn Value :=
  match mapped mapping (.ofText v.toText) with
  | some w => .ok w
  | none => (firstFound env v.toText (env.order.order mapping.items)).map
      (fun found => found.getD ((mapping.lookup (.str "other")).getD v))

/-- The group and the field of a `parent_ref`. -/
def parentColumn (parent : Results) (ref : String) : Option Column :=
  (parent.lookup (String.ofList (partitionDouble ':' ref.toList).1)).bind
    (fun group => group.lookup (.str (String.ofList (partitionDouble ':' ref.toList).2)))

def notInParent (ref : String) : Exn :=
  .refNotFound ("request value remapping using parent "
    ++ String.ofList (partitionDouble ':' ref.toList).2 ++ " ref "
    ++ String.ofList (partitionDouble ':' ref.toList).2 ++ " (not in data)")

def notInData (r : String) : Exn :=
  .refNotFound ("request value remapping using ref " ++ r ++ " (not in data)")

def _process_by_value_remap (parent : Results) (data : Dataset) (name : String) :
    ValueSub → Except Exn Dataset
  | .dict mapping => onColumn data name (forItems env (fun c k v =>
      (substitute env mapping v).map (fun w => AList.insert k w c)))
  | .ref r => match data.lookup r with
    | none => .error (notInData r)
    | some ref => onColumn data name (forItems env (fun c k v =>
        -- the column may be looked up in itself
        match (if r = name then c else ref).lookup (.str v.toText) with
        | some w => .ok (AList.insert k w c)
        | none => .ok c))
  | .parent_ref ref => match parentColumn parent ref with
    | none => .error (notInParent ref)
    | some col => onColumn data name (forItems env (fun c k v =>
        match col.lookup (.str v.toText) with
        | some w => .ok (AList.insert k w c)
        | none => .ok c))
  | .set s => onColumn data name (forItems env (fun c k _ => .ok (AList.insert k s c)))
  | .prefixed s => onColumn data name (forItems env (fun c k v =>
      .ok (AList.insert k (.str (s.toText ++ v.toText)) c)))
  | .unknown text => .error (.exception ("unknown mapping type " ++ text))

/-- The named groups of an item that matches; whatever it raises is ignored. -/
def _process_regexp (item : Value) (pattern : String) : Option (Dict String Value) :=
  match env.match? pattern item with
  | .ok d => d
  | .error _ => none

/-- What the named groups of a match do to an entry: `key` moves it, `value` replaces its value. -/
def regexpEntry (d : Option (Dict String Value)) (c : Column) (k v : Value) : Column :=
  match d with
  | none => c
  | some d => match d.lookup "key" with
    | some key => AList.insert key v (AList.erase k c)
    | none => match d.lookup "value" with
      | some value => AList.insert k value c
      | none => c

def _process_by_regexp (data : Dataset) (name y pattern : String) : Except Exn Dataset :=
  if y = "key" then onColumn data name (forItems env (fun c k v =>
    .ok (regexpEntry (_process_regexp env k pattern) c k v)))
  else if y = "value" then onColumn data name (forItems env (fun c k v =>
    .ok (regexpEntry (_process_regexp env v pattern) c k v)))
  else .error (.exception "must define what to operate regexp on by key or value")

/-- One match of `extract_from_key`: each named group but `key` is a column. -/
def extractMatch (k : Value) (d : Dict String Value) (data : Dataset) : Dataset :=
  (env.order.order (Dict.items (AList.erase "key" d))).foldl (fun data p =>
    AList.insert p.1 (AList.insert ((d.lookup "key").getD k) p.2 ((data.lookup p.1).getD ∅)) data)
    data

def _process_by_extract_from_key (data : Dataset) (name : String) (regexp : Option String) :
    Except Exn Dataset :=
  match regexp with
  | none => .ok data
  | some pattern => match data.lookup name with
    | none => .error (.keyError name)
    | some c => (env.order.order c.items).foldlM (fun data p =>
        match env.match? pattern p.1 with
        | .error e => .error (.typeError e)
        | .ok none => .ok data
        | .ok (some d) => .ok (extractMatch env p.1 d data)) data

/-- The contributions of the sources of `merge_defs`: their entries that are not excluded, or
not null where nothing is. -/
def keptEntries (data : Dataset) (k : String) (fields : List Value) : Column :=
  (env.order.order ((data.lookup k).getD ∅).items).foldl (fun this p =>
    if (if fields.isEmpty then decide (p.2 = .none) else fields.any (valueEq p.2)) then this
    else AList.insert p.1 p.2 this) ∅

def _process_by_merge_defs (data : Dataset) (name : String) (defn : Dict String (List Value)) :
    Dataset :=
  let this := ((env.order.order defn.items).map (fun p => keptEntries env data p.1 p.2)).filter
    (fun c => !c.items.isEmpty)
  match this with
  | [c] => AList.insert name c data
  | this => (env.order.order this).foldl (fun data c => (env.order.order c.items).foldl (fun data p =>
      AList.insert name (AList.insert p.1 p.2 ((data.lookup name).getD ∅)) data) data) data

/-- The function of a driver on the keys. -/
def callOnKey (func : String) (c : Column) (k v : Value) : Column :=
  match env.call func k with
  | none => c
  | some j => match hashed j with
    | .error _ => c
    | .ok j => if valueEq j k then c else AList.erase k (AList.insert j v c)

def functionDelete (data : Dataset) (text : String) : Dataset :=
  match data.lookup (Text.partition ':' text).1 with
  | none => data
  | some c => AList.insert (Text.partition ':' text).1
      (AList.erase (.str (Text.partition ':' text).2.2) c) data

/-- The entries are values, not dictionaries: a text that has the key in it cannot be changed. -/
def functionDeleteKey (data : Dataset) (text : String) : Except Exn Dataset :=
  match data.lookup (Text.partition ':' text).1 with
  | none => .ok data
  | some c => (env.order.order c.items).foldlM (fun data p => do
      if ← contains p.2 (Text.partition ':' text).2.2 then
        .error (.typeError "object doesn't support item deletion")
      else pure data) data

/-- As for `functionDeleteKey`, an entry that has the key in it cannot be looked up there. -/
def functionDeleteEntryUnless (data : Dataset) (text : String) : Except Exn Dataset :=
  let ref := Text.partition ':' (String.ofList (partitionDouble '=' text.toList).1)
  match data.lookup ref.1 with
  | none => .ok data
  | some _ => onColumn data ref.1 (forItems env (fun c k v => do
      if ← contains v ref.2.2 then .error (.typeError "indices must be integers, not str")
      else pure (AList.erase k c)))

def _process_by_function (data : Dataset) (name y func : String) : Call :=
  if y = "key" then .inPlace data (onColumn data name (forItems env (fun c k v =>
    .ok (callOnKey env func c k v))))
  else if y = "value" then .inPlace data (onColumn data name (forItems env (fun c k v =>
    .ok (match env.call func v with
      | some w => AList.insert k w c
      | none => c))))
  else if y = "delete" then .inPlace data (.ok (functionDelete data func))
  else if y = "delete_key" then .inPlace data (functionDeleteKey env data func)
  else if y = "delete_entry_unless" then .inPlace data (functionDeleteEntryUnless env data func)
  else if y = "group" then
    match env.groupCall func data with
    | (given, some c) => .same (.dataset (AList.insert name c given))
    | (given, none) => .same (.dataset given)
  else if y = "dataset" then
    match env.datasetCall func data with
    | (given, some new) => ⟨.dataset given, .ok new⟩
    | (given, none) => .same (.dataset given)
  else .same (.dataset data)

def _process_by_value_math (data : Dataset) (name : String) (func : Option String)
    (value : Value) : Except Exn Dataset :=
  match func with
  | none => .ok data
  | some func => onColumn data name (forItems env (fun c k v =>
      .ok (match (if func = "divide_by" then env.divide v value
          else if func = "multiply_by" then env.multiply v value else none) with
        | some w => AList.insert k w c
        | none => c)))

/-- Whether `filter` keeps an entry: the mapping says so, or `other` does. -/
def kept (y : String) (mapping : Dict Value Value) (k v : Value) : Bool :=
  match mapped mapping (.ofText (if y = "key" then k else v).toText) with
  | some t => truthy t
  | none => ((mapping.lookup (.str "other")).map truthy).getD true

def _process_by_filter (data : Dataset) (name y : String) (mapping : Dict Value Value) :
    Except Exn Dataset :=
  onColumn data name (forItems env (fun c k v =>
    .ok (if kept y mapping k v then c else AList.erase k c)))

def _process_by_set_value_as_key (data : Dataset) (name : String) : Except Exn Dataset :=
  if name ∈ data then onColumn data name (forItems env (fun c k _ => .ok (AList.insert k k c)))
  else .ok data

def _process_by_to_array (data : Dataset) (name : String) : Call :=
  match data.lookup name with
  | none => ⟨.dataset data, .error (.keyError name)⟩
  | some c => ⟨.dataset data, .ok (some (.array ((env.order.order c.items).map Prod.fst)))⟩

/-- It is called with parent data, which it does not take. -/
def swapKeyValues : Exn :=
  .typeError "_process_by_swap_key_values() got an unexpected keyword argument 'parent_data'"

def unknownMap (name : String) : Exn := .exception ("unknown/unregistered map " ++ name)

/-- One map on a dataset. -/
def processDataset (parent : Results) (name : String) (data : Dataset) : MapDef → Call
  | .key_sub ref => .inPlace data (_process_by_key_remap env data name ref)
  | .value_sub defn => .inPlace data (_process_by_value_remap env parent data name defn)
  | .regexp y pattern => .inPlace data (_process_by_regexp env data name y pattern)
  | .extract_from_key regexp => .inPlace data (_process_by_extract_from_key env data name regexp)
  | .function y func => _process_by_function env data name y func
  | .value_math func value => .inPlace data (_process_by_value_math env data name func value)
  | .to_array => _process_by_to_array env data name
  | .filter y mapping => .inPlace data (_process_by_filter env data name y mapping)
  | .set_value_as_key => .inPlace data (_process_by_set_value_as_key env data name)
  | .swap_keys_and_values => ⟨.dataset data, .error swapKeyValues⟩
  | .merge_defs defn => .same (.dataset (_process_by_merge_defs env data name defn))
  | .unknown name => ⟨.dataset data, .error (unknownMap name)⟩

/-- `data[name]` for a list. -/
def listIndex : Exn := .typeError "list indices must be integers, not str"

/-- One map on the list that `to_array` has left: what looks a column up raises. -/
def processArray (parent : Results) (name : String) (l : List Value) (m : MapDef) : Call :=
  let raised (e : Exn) : Call := ⟨.array l, .error e⟩
  match m with
  | .key_sub none => raised (.keyError "ref")
  | .key_sub (some ref) => raised (if .str ref ∈ l then listIndex
      else .refNotFound ("request remapping using ref " ++ ref ++ " (not in data)"))
  | .value_sub (.ref r) => raised (if .str r ∈ l then listIndex else notInData r)
  | .value_sub (.parent_ref ref) => raised (if (parentColumn parent ref).isSome then listIndex
      else notInParent ref)
  | .value_sub (.unknown text) => raised (.exception ("unknown mapping type " ++ text))
  | .value_sub _ => raised listIndex
  | .regexp y _ => raised (if y = "key" ∨ y = "value" then listIndex
      else .exception "must define what to operate regexp on by key or value")
  | .extract_from_key none => .same (.array l)
  | .extract_from_key (some _) => raised listIndex
  | .function y func =>
      if y = "key" ∨ y = "value" then raised listIndex
      else if y = "delete" ∨ y = "delete_key" then
        if .str (Text.partition ':' func).1 ∈ l then raised listIndex else .same (.array l)
      else if y = "delete_entry_unless" then
        if .str (Text.partition ':' (String.ofList (partitionDouble '=' func.toList).1)).1 ∈ l
        then raised listIndex else .same (.array l)
      else .same (.array l)
  | .value_math none _ => .same (.array l)
  | .value_math (some _) _ => raised listIndex
  | .to_array => raised listIndex
  | .filter _ _ => raised listIndex
  | .set_value_as_key => if .str name ∈ l then raised listIndex else .same (.array l)
  | .swap_keys_and_values => raised swapKeyValues
  | .merge_defs defn =>
      if defn.keys.any (fun k => decide (.str k ∈ l)) then raised listIndex else .same (.array l)
  | .unknown name => raised (unknownMap name)

/-- `PROCESS_BY_MAP[k](result, field, v, parent_data=parent_data)`. -/
def processByMap (parent : Results) (name : String) (m : MapDef) : Data → Call
  | .dataset data => processDataset env parent name data m
  | .array l => processArray parent name l m

/-! ## Lists of maps -/

/-- An item of a list of maps: a dictionary of maps, in the order in which it is gone through, or
a list again; anything else is passed over. -/
inductive Maps : Type where
  | dict (entries : List MapDef)
  | list (l : List Maps)
  | other

mutual

/-- Within a list the parent data is not handed on. -/
def _remap (i : Maps) (parent : Results) (field : String) (result : Data) : Call :=
  match i with
  | .list l => _remapList l field result
  | .dict entries =>
      entries.foldl (fun c m => c.andThen (processByMap env parent field m)) (.same result)
  | .other => .same result

def _remapList (l : List Maps) (field : String) (result : Data) : Call :=
  match l with
  | [] => .same result
  | i :: l => (_remap i ∅ field result).andThen (fun result => _remapList l field result)

end

/-- The loop over the maps of a definition: what `result` refers to when it ends, and what it
raises. -/
def remapLoop (parent : Results) (field : String) : List Maps → Data → Data × Option Exn
  | [], result => (result, none)
  | i :: is, result =>
      match (_remap env i parent field result).result with
      | .error e => ((_remap env i parent field result).given, some e)
      | .ok new => remapLoop parent field is (new.getD (_remap env i parent field result).given)

/-- A definition: what it asks of the dataset, and what it makes of it. -/
structure Item : Type where
  ref : Option String := none
  required : Option Bool := none
  maps : List Maps := []
  clean : Bool := false

/-- The maps as `remap` runs them: one level of lists is taken apart here. -/
def Item.opened (item : Item) : List Maps :=
  item.maps.flatMap (fun i => match i with
    | .list l => l
    | i => [i])

/-- `result[ref]`, where there is one. -/
def Data.column? : Data → String → Except Exn (Option Column)
  | .dataset d, ref => .ok (d.lookup ref)
  | .array l, ref => if .str ref ∈ l then .error listIndex else .ok none

/-- Whether a column has a value that is not null. -/
def tally (c : Option Column) : Bool := (c.getD ∅).items.any (fun p => p.2 ≠ .none)

/-- Checking and renaming the column of a definition. -/
def takeRef (result : Data) (field : String) (item : Item) : Except Exn Data :=
  match item.ref with
  | none => .ok result
  | some ref => do
      let c ← result.column? ref
      if !tally c ∧ item.required ≠ some false then
        .error (.refNotFound ("field '" ++ field ++ "' not in dataset"))
      else if ref = field then .ok result
      else match result with
        | .dataset d => (_process_by_field_rename d field ref item.required).map Data.dataset
        | .array l => .ok (.array l)

/-- `Driver.remap`.  A `KeyError` ends the maps, for definitions that are required as well. -/
def remap (parent : Results) (result : Data) (field : String) (item : Item) : Except Exn Data := do
  let result ← takeRef result field item
  match remapLoop env parent field item.opened result with
  | (result, none) => .ok result
  | (result, some (.keyError _)) => .ok result
  | (_, some e) => .error e

end DriverMaps
