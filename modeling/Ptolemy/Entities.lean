/-
# Normalising the entities of a device

`post_normalise_entities` goes through the table of entities twice.  The first
loop corrects the types a device lies about, looks up which port a transceiver
is plugged into and collects the chassis; the second one removes what has no
serial number, hands its children to its parent, and puts the transceivers at
the index of their port.  Both keep the table and the tree of entities in step.
At the end the chassis get the model and the software that they lack, and the
entities that are left are yielded.

The functions that read a port name out of a description are not part of the
code and a parameter.
-/
import Ptolemy.EntityTree

namespace Entities

/-! ## Texts -/

/-- `search(p, s)` for a pattern that is a plain text. -/
def contains (p s : String) : Bool := decide (p.toList <:+: s.toList)

/-- The same with `IGNORECASE`; the pattern is in lower case. -/
def containsNoCase (p s : String) : Bool := decide (p.toList <:+: s.toList.map Char.toLower)

/-- `match(r'^\s+$', s)`. -/
def isBlank (s : String) : Bool := s ≠ "" && s.toList.all Text.isSpace

def isVersionChar (c : Char) : Bool := c.isAlphanum || c = '(' || c = ')' || c = '.'

/-- `search(r'version (?P<version>[a-zA-Z0-9\(\)\.]+)', s, IGNORECASE)`, on characters. -/
def versionIn : List Char → Option (List Char)
  | [] => none
  | c :: cs =>
    let run := ((c :: cs).drop 8).takeWhile isVersionChar
    if ((c :: cs).take 8).map Char.toLower = "version ".toList ∧ run ≠ [] then some run
    else versionIn cs

/-- `search(r'^Fex-\d+ (?P<model>\S+) Chassis', s)`, on characters. -/
def fexModel (s : List Char) : Option (List Char) :=
  let afterFex := s.drop 4
  let afterNumber := afterFex.dropWhile Char.isDigit
  let model := (afterNumber.drop 1).takeWhile (fun c => !Text.isSpace c)
  let rest := (afterNumber.drop 1).dropWhile (fun c => !Text.isSpace c)
  if s.take 4 = "Fex-".toList ∧ (afterFex.takeWhile Char.isDigit) ≠ [] ∧
      afterNumber.take 1 = [' '] ∧ model ≠ [] ∧ rest.take 8 = " Chassis".toList then
    some model
  else none

/-- `s.replace(a, b)`, on characters, the first `n` of which belong to what was replaced. -/
def replaceFrom (a b : List Char) : Nat → List Char → List Char
  | _, [] => []
  | n + 1, _ :: cs => replaceFrom a b n cs
  | 0, c :: cs =>
    if a <+: c :: cs then b ++ replaceFrom a b (a.length - 1) cs
    else c :: replaceFrom a b 0 cs

/-- The truth of a text that may be `None`. -/
def isText : Option String → Bool
  | none => false
  | some s => s ≠ ""

def optionValue : Option String → Value
  | none => .none
  | some s => .str s

/-! ## Moving nodes -/

/-- The children of a node in the order in which a loop meets them, none where there is no such
node. -/
def childrenIds (o : KeyOrder) (node : Value) (tree : Tree) : List Value :=
  match walkTo node tree with
  | none => []
  | some this => o.order this.keys

/-- One child of the node that is removed goes to the parent of that node. -/
def regraftChild (inherit : Entity → Entity → Entity) (node : Value) (removed : Entity)
    (parented : Bool) (s : Tree × Items) (c : Value) : Tree × Items :=
  match s.2.lookup c with
  | none => s
  | some child =>
    let sub := (((walkTo node s.1).getD .empty).get c).getD .empty
    let topology :=
      if parented then s.1.modify removed.parentIndex (fun t => t.set c sub) else s.1
    (topology.modify node (fun t => t.del c),
      AList.insert c (inherit removed { child with parentIndex := removed.parentIndex }) s.2)

/-- `regraft`: the children of `nodeToRemove` go to its parent, with the fields that they
inherit. -/
def regraft (o : KeyOrder) (inherit : Entity → Entity → Entity) (nodeToRemove : Value)
    (topology : Tree) (items : Items) : Except Exn (Tree × Items) := do
  let removed ← itemAt items nodeToRemove
  let parented := (walkTo removed.parentIndex topology).isSome
  let s := (childrenIds o nodeToRemove topology).foldl
    (regraftChild inherit nodeToRemove removed parented) (topology, items)
  if parented then pure (s.1.modify removed.parentIndex (fun t => t.del nodeToRemove), s.2)
  else pure s

/-- A child is told the new index of its parent. -/
def reassignChild (newNode : Value) (items : Items) (c : Value) : Except Exn Items := do
  let child ← itemAt items c
  pure (AList.insert c { child with parentIndex := newNode } items)

/-- `parent[new_node] = parent[node].copy()`, then `del parent[node]`, where there is a parent. -/
def renameUnder (parent node newNode : Value) (topology : Tree) : Tree :=
  match walkTo parent topology with
  | none => topology
  | some _ =>
    topology.modify parent (fun t => (t.set newNode ((t.get node).getD .empty)).del node)

/-- `reattach_as`: the node and its entry get a new index. -/
def reattachAs (o : KeyOrder) (node newNode : Value) (topology : Tree) (items : Items) :
    Except Exn (Tree × Items) := do
  let d ← itemAt items node
  let topology := renameUnder d.parentIndex node newNode topology
  let items ← (childrenIds o node topology).foldlM (reassignChild newNode) items
  let d ← itemAt items node
  let items := AList.erase node (AList.insert newNode { d with physicalIndex := newNode } items)
  -- the message that is logged reads the new entry
  let _ ← itemAt items newNode
  pure (topology, items)

/-! ## The first loop -/

/-- The functions that read a port name: `truncate_physical_port_name` and
`extract_physical_port`; `none` is `None`. -/
structure Ports : Type where
  truncate : String → Option String
  extract : String → Option String

/-- What the first loop collects. -/
structure Scan : Type where
  items : Items
  remap : Dict Value Value
  chassisIds : List Value
  possibleSwRevs : Dict (Option String) Nat
  possibleModels : Dict (Option String) Nat

/-- The type without what some devices are known to report wrongly. -/
def correctType (e : Entity) : Entity :=
  if e.type = "transceiver" ∧ (contains "Transceiver Port" e.description ∨ e.serial = none) then
    { e with type := "container" }
  else if e.type = "module" ∧
      (contains "Transceiver" e.description ∨ contains "Xcvr" e.description) then
    { e with type := "transceiver" }
  else e

/-- A child of a transceiver is put under the port that its description names. -/
def locateChild (ports : Ports) (s : Items × Option String) (childId : Value) :
    Except Exn (Items × Option String) := do
  let child ← itemAt s.1 childId
  let physicalPort := ports.truncate child.description
  pure (AList.insert childId { child with parentIndex := optionValue physicalPort } s.1,
    physicalPort)

/-- `d[v] = d.get(v, 0) + 1`. -/
def count (v : Option String) (d : Dict (Option String) Nat) : Dict (Option String) Nat :=
  AList.insert v ((d.lookup v).getD 0 + 1) d

/-- One turn of the first loop. -/
def scanEntity (o : KeyOrder) (ports : Ports) (topology : Tree) (s : Scan) (idx : Value) :
    Except Exn Scan := do
  let d ← itemAt s.items idx
  let this := correctType { d with parentIndex := .str d.parentIndex.toText }
  let s := { s with items := AList.insert idx this s.items }
  if this.type = "transceiver" then
    match walkTo idx topology with
    | none => .error (.typeError "'NoneType' object is not iterable")
    | some node => do
      let (items, located) ← (o.order node.keys).foldlM (locateChild ports) (s.items, none)
      let physicalPort := if isText located then located else ports.extract this.description
      match physicalPort with
      | none => pure { s with items := items }
      | some port =>
        if port = "" then pure { s with items := items }
        else pure { s with
          items := items
          remap := AList.insert idx (optionValue (ports.extract port)) s.remap }
  else if this.type = "chassis" then pure { s with chassisIds := s.chassisIds ++ [idx] }
  else if this.type = "module" ∧ containsNoCase "supervisor" this.description then
    pure { s with
      possibleSwRevs := count this.swRev s.possibleSwRevs
      possibleModels := count this.model s.possibleModels }
  else pure s

/-! ## The second loop -/

/-- What the children of a removed entity inherit besides its parent: its position, unless it is
a container of containers, of fans or a bay. -/
def inherited (removed child : Entity) : Entity :=
  if contains "Container of Container" removed.description ∨
      contains "Container of Fan" removed.description ∨ contains "Bay" removed.description then
    child
  else if contains "Container of " removed.description ∨
      ¬ containsNoCase "container" removed.description then
    { child with relativePosition := removed.relativePosition }
  else child

/-- An entity that the second loop removes: it has no serial, is no fan and is not at the top. -/
def useless (e : Entity) : Bool :=
  e.parentIndex ≠ .str "0" ∧ e.serial = none ∧ e.type ≠ "fan"

/-- One turn of the second loop. -/
def cleanEntity (o : KeyOrder) (remap : Dict Value Value) (s : Tree × Items) (idx : Value) :
    Except Exn (Tree × Items) := do
  let this ← itemAt s.2 idx
  let s ←
    if useless this then do
      let (topology, items) ← regraft o inherited idx s.1 s.2
      pure (topology, AList.erase idx items)
    else pure s
  match remap.lookup idx with
  | none => pure s
  | some newIdx => if idx ∈ s.2 then reattachAs o idx newIdx s.1 s.2 else pure s

/-! ## The chassis -/

/-- `d.keys().pop()` where there is one key, else `None`. -/
def onlyKey (d : Dict (Option String) Nat) : Option String :=
  match d.keys with
  | [v] => v
  | _ => none

/-- The only chassis gets the software and the model of the supervisors where it has none of its
own; failing that the software version in the description of the system. -/
def fillChassis (info : Option String) (s : Scan) (items : Items) (c : Value) :
    Except Exn Items := do
  let d ← itemAt items c
  let swRev :=
    if s.possibleSwRevs.keys.length = 1 then onlyKey s.possibleSwRevs
    else info.bind (fun i => (versionIn i.toList).map String.ofList)
  let d := if ¬ isText d.swRev ∧ isText swRev then { d with swRev := swRev } else d
  let model := onlyKey s.possibleModels
  let d :=
    if (d.model = none ∨ d.model.any isBlank) ∧ isText model then { d with model := model } else d
  pure (AList.insert c d items)

/-- One of several chassis gets the software of its only module, and the model that its
description tells if it is a fabric extender. -/
def fillFromModule (o : KeyOrder) (topology : Tree) (items : Items) (c : Value) :
    Except Exn Items := do
  let kinds ← (childrenIds o c topology).mapM (fun m => do
    let d ← itemAt items m
    pure (m, d.type))
  let items ←
    match kinds.filter (fun p => p.2 = "module") with
    | [(m, _)] => do
      let d ← itemAt items c
      let module ← itemAt items m
      pure (AList.insert c { d with
        swRev := if d.swRev = none then module.swRev else d.swRev
        fwRev := if d.fwRev = none then module.fwRev else d.fwRev } items)
    | _ => pure items
  match items.lookup c with
  | none => pure items
  | some d =>
    match d.model with
    | none => .error (.attributeError "'NoneType' object has no attribute 'startswith'")
    | some model =>
      if "Fabric Extender Module".toList <+: model.toList then
        match fexModel d.description.toList with
        | none => pure items
        | some v => pure (AList.insert c { d with
            model := some (String.ofList (replaceFrom "Nexus".toList "N2K-C".toList 0 v)) } items)
      else pure items

def fillAll (o : KeyOrder) (info : Option String) (s : Scan) (topology : Tree) (items : Items) :
    Except Exn Items :=
  match s.chassisIds with
  | [c] => fillChassis info s items c
  | cs => cs.foldlM (fillFromModule o topology) items

/-! ## The whole -/

/-- The entries as they are yielded. -/
def yields (items : Items) : List Entity :=
  items.items.map (fun p => { p.2 with physicalIndex := p.1 })

/-- `post_normalise_entities`; `info` is the description of the system, where there is one. -/
def postNormaliseEntities (o : KeyOrder) (ports : Ports) (info : Option String) (items : Items) :
    Except Exn (List Entity) := do
  let topology ← entityTree o items
  let s ← (numeriseKeys items).foldlM (scanEntity o ports topology) ⟨items, ∅, [], ∅, ∅⟩
  let (topology, items) ←
    (numeriseKeys s.items).foldlM (cleanEntity o s.remap) (topology, s.items)
  let items ← fillAll o info s topology items
  pure (yields items)

end Entities
