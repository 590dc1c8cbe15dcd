/-
# Post-processing of collected data

`Driver.post_remap` turns the processed groups into lists of records.  Each group may
have a list of post maps.  Most of them are generators over one record, which they
change in place, drop, or move to another group; `post_merge`, and a
`post_function` for `dataset`, work on all data at once.

Records are shared: the data, the results and the steps refer to the same objects.
They are therefore kept in a store and referred to by addresses.  Regular
expressions and the functions a driver names are parameters.  A generator is taken
to have changed what it changes when the loop over it is left.
-/
import Ptolemy.Value

namespace Driver

/-! ## Records -/

/-- What is collected for one index: a value for each field. -/
abbrev Record : Type := Dict String Value

/-- The address of a record. -/
abbrev Ref : Type := Nat

/-- The records, the next free address, and the data: the records of each group by index. -/
structure World : Type where
  records : Ref → Record
  next : Ref
  data : Dict String (Dict String Ref)

namespace World

def set (w : World) (d : Ref) (r : Record) : World :=
  { w with records := Function.update w.records d r }

/-- A new record. -/
def alloc (w : World) (r : Record) : Ref × World :=
  (w.next, { w with records := Function.update w.records w.next r, next := w.next + 1 })

end World

/-- What a generator yields, and the world it leaves: groups and records, where `none` stands
for `None, None`. -/
abbrev Gen : Type := List (Option (String × Ref)) × World

/-- A function that a driver names, called with a group, a record and the data; where it
raises, it has yielded what it has yielded so far. -/
abbrev PostFunction : Type := String → Ref → World → Gen

/-- What the steps use from elsewhere: `search(..).groupdict()`, `globals()`, and the order in
which dictionaries are gone through. -/
structure Env : Type 1 where
  search : String → String → Except Exn (Option (List (String × Value)))
  globals : String → Option PostFunction
  order : IterOrder := IterOrder.stored

/-! ## The steps -/

/-- One entry of a list of post maps. -/
inductive PostMap : Type where
  | post_null : PostMap
  | post_extract (defn : Dict String String) : PostMap
  | post_key_sub (defn : Dict String String) : PostMap
  | post_default_value (defn : Dict String Value) : PostMap
  | post_key_rename (defn : Dict String String) : PostMap
  | post_remove (defn : Dict String Value) : PostMap
  | post_clean (defn : List String) : PostMap
  | post_new_group_from_field (field : Option String) : PostMap
  | post_merge (defn : Dict String String) : PostMap
  | post_function (defn : Dict String String) : PostMap
  /-- Any other name. -/
  | unknown (name : String) : PostMap

variable (env : Env)

/-- A value that counts as true. -/
def truthy : Value → Bool
  | .none => false
  | .bool b => b
  | .int n => n ≠ 0
  | .float t => t ≠ "0.0" ∧ t ≠ "-0.0"
  | .str s => s ≠ ""
  | .list l => l ≠ []

/-- `v == w`, where `True` is 1 and `1.0` is 1. -/
def valueEq : Value → Value → Bool
  | .bool a, .int n => n = if a then 1 else 0
  | .int n, .bool a => n = if a then 1 else 0
  | .int n, .float t => t = toString n ++ ".0"
  | .float t, .int n => t = toString n ++ ".0"
  | .bool a, .float t => t = if a then "1.0" else "0.0"
  | .float t, .bool a => t = if a then "1.0" else "0.0"
  | v, w => v = w

/-- One field of `post_extract`. -/
def extractField (r : Record) (p : String × String) : Except Exn Record :=
  match r.lookup p.1 with
  | none => pure r
  | some v => if truthy v then
      match v with
      | .str s => do
        match ← env.search p.2 s with
        | none => pure r
        | some groups =>
          let r' := groups.foldl (fun r q => r.insert q.1 q.2) r
          -- the field is kept if the expression names it
          pure (if groups.any (fun q => q.1 = p.1) then r' else r'.erase p.1)
      | _ => throw (.typeError "expected string or buffer")
    else pure r

/-- The group and the reference of a `post_key_sub`. -/
def keySubTarget (g ref : String) : String × String :=
  if ':' ∈ ref.toList then ((Text.partition ':' ref).1, (Text.partition ':' ref).2.2) else (g, ref)

/-- One field of `post_key_sub`. -/
def keySubField (g : String) (d : Ref) (w : World) (p : String × String) : Except Exn World :=
  match (w.records d).lookup p.1 with
  | none => pure w
  | some v => match w.data.lookup (keySubTarget g p.2).1 with
    | none => throw (.keyError (keySubTarget g p.2).1)
    | some items => match items.lookup (keySubTarget g p.2).2 with
      | none => pure w
      | some ref => match v with
        | .str s => match (w.records ref).lookup s with
          | none => pure w
          | some u => pure (w.set d ((w.records d).insert p.1 u))
        | .list _ => throw (.typeError "unhashable type: 'list'")
        -- fields are texts
        | _ => pure w

/-- One field of `post_default_value`. -/
def defaultField (r : Record) (p : String × Value) : Record :=
  if p.1 ∈ r then r else r.insert p.1 p.2

/-- One field of `post_key_rename`. -/
def renameField (r : Record) (p : String × String) : Record :=
  match r.lookup p.1 with
  | none => r
  | some v => (r.insert p.2 v).erase p.1

/-- What one field of `post_remove` yields: `None`, or nothing. -/
def removeField (r : Record) (p : String × Value) : List (Option (String × Ref)) :=
  match r.lookup p.1 with
  | some v => if valueEq v p.2 then [none] else []
  | none => [none]

/-- `u.replace(s, '')`, on characters; the number counts what is still to be left out. -/
def replaceChars (s : List Char) : Nat → List Char → List Char
  | _, [] => []
  | n + 1, _ :: cs => replaceChars s n cs
  | 0, c :: cs => if s ≠ [] ∧ s.isPrefixOf (c :: cs) then replaceChars s (s.length - 1) cs
      else c :: replaceChars s 0 cs

/-- Nothing is left out of a text in which `s` is nowhere found. -/
theorem replaceChars_of_not_prefix {s l : List Char} (h : ∀ r, r <:+ l → ¬ s <+: r) :
    replaceChars s 0 l = l := by
  induction l with
  | nil =>
    unfold replaceChars
    rfl
  | cons c l ih =>
    unfold replaceChars
    rw [if_neg (fun hand => h _ List.suffix_rfl (List.isPrefixOf_iff_prefix.mp hand.2)),
      ih (fun r hr => h r (hr.trans (List.suffix_cons c l)))]

/-- The name of a field without the text `s`. -/
def withoutText (s u : String) : String := String.ofList (replaceChars s.toList 0 u.toList)

/-- The records of one group are laid over each other, field names without `s`, and a copy is
yielded after each. -/
def mergeRecords (g s : String) : List Ref → Record → World → Gen
  | [], _, w => ([], w)
  | ref :: refs, this, w =>
    let this := (env.order.order (w.records ref).items).foldl
      (fun this p => this.insert (withoutText s p.1) p.2) this
    let (d, w) := w.alloc this
    let (ys, w) := mergeRecords g s refs this w
    (some (g, d) :: ys, w)

/-- The groups of `post_merge`, with the text to leave out. -/
def mergeGroups (g : String) : List (String × String) → World → Gen
  | [], w => ([], w)
  | (k, s) :: l, w => match w.data.lookup k with
    | none => mergeGroups g l w
    | some items =>
      let (ys, w) := mergeRecords env g s ((env.order.order items.items).map Prod.snd) ∅ w
      let (zs, w) := mergeGroups g l w
      (ys ++ zs, w)

/-- `PROCESS_BY_POST_MAP`. -/
def step (g : String) (d : Ref) (w : World) : PostMap → Except Exn Gen
  | .post_null => pure ([some (g, d)], w)
  | .post_extract defn => do
    let r ← (env.order.order defn.items).foldlM (extractField env) (w.records d)
    pure ([some (g, d)], w.set d r)
  | .post_key_sub defn => do
    let w ← (env.order.order defn.items).foldlM (keySubField g d) w
    pure ([some (g, d)], w)
  | .post_default_value defn => pure ([some (g, d)],
      w.set d ((env.order.order defn.items).foldl defaultField (w.records d)))
  | .post_key_rename defn => pure ([some (g, d)],
      w.set d ((env.order.order defn.items).foldl renameField (w.records d)))
  | .post_remove defn => pure
      ((env.order.order defn.items).flatMap (removeField (w.records d)) ++ [some (g, d)], w)
  | .post_clean defn => pure ([some (g, d)],
      w.set d (defn.foldl (fun r i => r.erase i) (w.records d)))
  | .post_new_group_from_field field => pure (match field with
      | none => ([], w)
      | some f => match (w.records d).lookup f with
        | none => ([], w)
        | some v => ([some (g ++ "@" ++ f ++ "=" ++ v.toText, d)],
            w.set d ((w.records d).erase f)))
  | .post_merge defn => pure (mergeGroups env g (env.order.order defn.items) w)
  | .post_function defn => match env.order.order defn.items with
    | [] => throw (.exception "list index out of range")
    | (_, func) :: _ => match env.globals func with
      | none => pure ([], w)
      | some f => pure (f g d w)
  | .unknown name => throw (.keyError name)

/-! ## The driver -/

/-- What `post_remap` uses of the definition of a group. -/
structure GroupPost : Type where
  keyName : String := "index"
  removeKey : Bool := false
  post : Option (List PostMap) := none

/-- The groups of a driver, and those that it polls by iteration. -/
structure Posts : Type where
  groups : Dict String GroupPost := ∅
  iterativeGroups : Dict String GroupPost := ∅

variable (posts : Posts)

/-- `_remove_key`: whether the index is removed from the records of a group, and its name. -/
def removeKeyOf (g : String) : Bool × String :=
  let (thisG, _, field) := Text.partition '@' g
  let defn := (if field ≠ "" then posts.iterativeGroups.lookup thisG
    else posts.groups.lookup g).getD {}
  (defn.removeKey, defn.keyName)

/-- `post`, with the null call if nothing is defined. -/
def postMaps (g : String) : List PostMap :=
  ((posts.groups.lookup g).bind GroupPost.post).getD [.post_null]

/-- The introspection of `post_remap`: does a map work on the whole dataset? -/
def workOnDataset : List PostMap → Bool → Except Exn Bool
  | [], b => pure b
  | .post_function defn :: ms, b =>
    if 1 < defn.items.length then throw (.notImplemented "post function with chained maps")
    else match env.order.order defn.items with
      | [] => throw (.exception "list index out of range")
      | (kind, _) :: _ => workOnDataset ms (b || decide (kind = "dataset"))
  | .post_merge _ :: ms, _ => workOnDataset ms true
  | _ :: ms, b => workOnDataset ms b

/-- The world, and what has been appended to the results, in order: a group and a record. -/
structure State : Type where
  world : World
  results : List (Option (String × Ref)) := []

/-- `for this_g, d, data in ..: if d == None: break`. -/
def consume {α : Type} : Option α → List (Option α) → Option α
  | cur, [] => cur
  | _, none :: _ => none
  | _, some p :: ys => consume (some p) ys

/-- The calls for one record of group `g`: each step is given `g`, and nothing is called once
the record is `None` or empty. -/
def runMaps (g : String) : List PostMap → Option (String × Ref) → World →
    Except Exn (Option (String × Ref) × World)
  | [], cur, w => pure (cur, w)
  | m :: ms, cur, w => match cur with
    | none => runMaps g ms none w
    | some (thisG, d) =>
      if (w.records d).items.isEmpty then runMaps g ms (some (thisG, d)) w
      else do
        let (ys, w) ← step env g d w m
        runMaps g ms (consume (some (thisG, d)) ys) w

/-- The record of an index, with the index inserted under the name of the key. -/
def takeItem (keys : Dict String String) (g k : String) (w : World) : Except Exn (Ref × World) := do
  let items ← (w.data.lookup g).elim (throw (.keyError g)) pure
  let d ← (items.lookup k).elim (throw (.keyError k)) pure
  let key ← (keys.lookup g).elim (throw (.keyError g)) pure
  pure (d, if key ∈ w.records d then w else w.set d ((w.records d).insert key (.str k)))

/-- A record that is neither `None` nor empty enters the results, without its key if that is
to be removed. -/
def finishItem (removeKey : Bool) (keyName : String) (results : List (Option (String × Ref)))
    (cur : Option (String × Ref)) (w : World) : Except Exn State :=
  match cur with
  | none => pure ⟨w, results⟩
  | some (thisG, d) =>
    if (w.records d).items.isEmpty then pure ⟨w, results⟩
    else if removeKey then
      if keyName ∈ w.records d then
        pure ⟨w.set d ((w.records d).erase keyName), results ++ [some (thisG, d)]⟩
      else throw (.keyError keyName)
    else pure ⟨w, results ++ [some (thisG, d)]⟩

/-- One index of a group. -/
def visitItem (keys : Dict String String) (g : String) (s : State) (k : String) :
    Except Exn State := do
  let (d, w) ← takeItem keys g k s.world
  let (cur, w) ← runMaps env g (postMaps posts g) (some (g, d)) w
  finishItem (removeKeyOf posts g).1 (removeKeyOf posts g).2 s.results cur w

/-- One yield of a map that works on the whole dataset. -/
def collect (removeKey : Bool) (keyName : String) (s : State) (y : Option (String × Ref)) :
    Except Exn State :=
  match y with
  | none => if removeKey then throw (.typeError "argument of type 'NoneType' is not iterable")
      else pure { s with results := s.results ++ [none] }
  | some (thisG, d) =>
    pure ⟨if removeKey ∧ keyName ∈ s.world.records d then
        s.world.set d ((s.world.records d).erase keyName) else s.world,
      s.results ++ [some (thisG, d)]⟩

/-- The map called on the whole dataset is the last one looked at. -/
def visitDataset (g : String) (m : PostMap) (s : State) : Except Exn State := do
  let (d, w) := s.world.alloc ∅
  let (ys, w) ← step env g d w m
  ys.foldlM (collect (removeKeyOf posts g).1 (removeKeyOf posts g).2) ⟨w, s.results⟩

/-- One group. -/
def visitGroup (keys : Dict String String) (s : State) (g : String) : Except Exn State := do
  let work ← workOnDataset env (postMaps posts g) false
  match work, (postMaps posts g).getLast? with
  | true, some m => visitDataset env posts g m s
  | _, _ => do
    let items ← (s.world.data.lookup g).elim (throw (.keyError g)) pure
    ((env.order.order items.items).map Prod.fst).foldlM (visitItem env posts keys g) s

/-- `post_remap`: the groups of the data are visited in one of their orders. -/
def postRemap (visit : IterOrder) (keys : Dict String String) (w : World) : Except Exn State :=
  (visit.order (w.data.items.map Prod.fst)).foldlM (visitGroup env posts keys) ⟨w, []⟩

/-- The records of a group in the results. -/
def State.recordsOf (s : State) (g : String) : List Record :=
  s.results.filterMap (fun y => match y with
    | some (thisG, d) => if thisG = g then some (s.world.records d) else none
    | none => none)

/-- No expression matches, and there are no functions. -/
def sampleEnv : Env where
  search := fun _ _ => .ok none
  globals := fun _ => none

end Driver
