/-
# The references of a driver

A driver file groups definitions.  Each names the raw column that it is made from under
`ref`, and so may the maps that it applies; lists of maps may be nested.  Values that a
definition does not give itself are taken from the defaults of its group, and else
from those of the file: so is its `agent`, which is to collect its columns.

`Driver.refs` gathers the names for an agent.  It does not look at the agent: where the
file has several, each is asked for the columns of all of them (`agentRefs_iff`).  It
also raises on a map whose definition cannot be searched for a `ref`.
-/
import Ptolemy.Yaml

namespace DriverRefs

/-! ## Driver files -/

/-- A stanza: a definition under its name. -/
abbrev Stanza : Type := List (String × Dict String Yaml)

/-- A group of a driver file; `post` says whether it has post-processing. -/
structure GroupConf : Type where
  defaults : Dict String Yaml := ∅
  defs : Option (List Stanza) := none
  post : Bool := false

/-- What is read of a driver file. -/
structure Conf : Type where
  defaults : Dict String Yaml := ∅
  definition : Dict String GroupConf := ∅
  iterative_definition : Dict String GroupConf := ∅

/-- A definition with all its values, under its name. -/
abbrev Def : Type := String × Dict String Yaml

structure Group : Type where
  defaults : Dict String Yaml
  defs : List Def

structure Driver : Type where
  agentSettings : Dict Value Yaml
  groupsDefs : Dict String Group
  iterativeGroupsDefs : Dict String Group

/-- A value as the key of a dictionary. -/
def hashed : Yaml → Except Exn Value
  | .null => .ok .none
  | .bool b => .ok (.bool b)
  | .int n => .ok (.int n)
  | .float text => .ok (.float text)
  | .str s => .ok (.str s)
  | .list _ => .error (.typeError "unhashable type: 'list'")
  | .dict _ => .error (.typeError "unhashable type: 'dict'")

def get_defaults (conf : Conf) (group : GroupConf) : Dict String Yaml :=
  conf.defaults.overlay group.defaults

def definition_stanza (stanza : Stanza) (defaults : Dict String Yaml) :
    Except Exn (Def × Yaml) :=
  let this := stanza.foldl (fun this p => this.overlay p.2) defaults
  match stanza.getLast? with
  | none => .error (.exception "local variable 'k' referenced before assignment")
  | some (k, _) => match this.lookup "agent" with
    | none => .error (.keyError "agent")
    | some agent => .ok ((k, this), agent)

/-- One definition joins its group, and its agent those that are known. -/
def addStanza (defaults : Dict String Yaml) (s : List Def × Dict Value Yaml) (stanza : Stanza) :
    Except Exn (List Def × Dict Value Yaml) := do
  let (this, agent) ← definition_stanza stanza defaults
  let a ← hashed agent
  pure (s.1 ++ [this], if a ∈ s.2 then s.2 else AList.insert a (.dict []) s.2)

/-- One group. -/
def addGroup (name : String) (conf : Conf) (s : Dict String Group × Dict Value Yaml)
    (p : String × GroupConf) : Except Exn (Dict String Group × Dict Value Yaml) :=
  let defaults := get_defaults conf p.2
  match p.2.defs with
  | some stanzas => do
    let (defs, agents) ← stanzas.foldlM (addStanza (AList.erase "settings" defaults)) ([], s.2)
    pure (AList.insert p.1 ⟨defaults, defs⟩ s.1, agents)
  | none =>
    if p.2.post then pure (AList.insert p.1 ⟨defaults, []⟩ s.1, s.2)
    else throw (.exception
      ("no useable stanzas found in driver " ++ name ++ " for group " ++ p.1))

def _process (name : String) (o : IterOrder) (conf : Conf) (field : Dict String GroupConf)
    (agents : Dict Value Yaml) : Except Exn (Dict String Group × Dict Value Yaml) :=
  (o.order field.items).foldlM (addGroup name conf) (∅, agents)

/-- The settings of the agents among the defaults of a file. -/
def settingsOf (conf : Conf) : Except Exn (Dict Value Yaml) :=
  match conf.defaults.lookup "settings" with
  | none => .ok ∅
  | some (.dict entries) => .ok (entries.foldl (fun d p => AList.insert (.str p.1) p.2 d) ∅)
  | some (.list []) => .ok ∅
  | some (.str "") => .ok ∅
  | some _ => .error (.typeError "indices must be integers, not str")

/-- `YAMLDriver.process`. -/
def process (name : String) (o : IterOrder) (conf : Conf) : Except Exn Driver := do
  let agents ← settingsOf conf
  let (groups, agents) ← _process name o conf conf.definition agents
  if groups.items.isEmpty then throw (.exception "no definitions found")
  else do
    let (iterativeGroups, agents) ← _process name o conf conf.iterative_definition agents
    pure ⟨agents, groups, iterativeGroups⟩

/-! ## Gathering references -/

/-- The names found so far. -/
abbrev Refs : Type := Dict Value Bool

/-- `refs[y] = True`. -/
def addRef (y : Yaml) (refs : Refs) : Except Exn Refs :=
  (hashed y).map (fun n => AList.insert n true refs)

/-- One map of a dictionary of maps. -/
def mapRef (y : Yaml) (refs : Refs) : Except Exn Refs := do
  if ← y.hasKey "ref" then addRef (← y.getKey "ref") refs else pure refs

mutual

/-- `Driver.__refs`. -/
def refsOf (j : Yaml) (refs : Refs) : Except Exn Refs :=
  match j with
  | .list items => refsOfItems items refs
  | .dict entries => entries.foldlM (fun refs p => mapRef p.2 refs) refs
  | _ => .ok refs

def refsOfItems (items : List Yaml) (refs : Refs) : Except Exn Refs :=
  match items with
  | [] => .ok refs
  | o :: items => (refsOf o refs).bind (refsOfItems items)

end

/-- `for j in v`. -/
def iterate : Yaml → Except Exn (List Yaml)
  | .list items => .ok items
  | .dict entries => .ok (entries.map (fun p => .str p.1))
  | .str s => .ok (s.toList.map (fun c => .str c.toString))
  | _ => .error (.typeError "object is not iterable")

def _refs (r : Def) : Except Exn Refs := do
  let refs ← match r.2.lookup "ref" with
    | some y => addRef y ∅
    | none => pure ∅
  match r.2.lookup "map" with
  | some v => (← iterate v).foldlM (fun refs j => refsOf j refs) refs
  | none => pure refs

def Driver._groups_defs (driver : Driver) (inside : String) : Dict String Group :=
  if inside = "iterative_groups" then driver.iterativeGroupsDefs else driver.groupsDefs

/-- The names of one definition join the others. -/
def defRefs (r : Def) (refs : Refs) : Except Exn Refs :=
  (_refs r).map (fun names => names.keys.foldl (fun refs x => AList.insert x true refs) refs)

/-- The names of one group. -/
def groupRefs (ignore : List String) (p : String × Group) (refs : Refs) : Except Exn Refs :=
  if p.1 ∈ ignore then .ok refs else p.2.defs.foldlM (fun refs r => defRefs r refs) refs

/-- `Driver.refs`. -/
def Driver.refs (driver : Driver) (o : IterOrder) (_agent : Value) (inside : String)
    (ignore : List String) : Except Exn (List Value) :=
  ((o.order (driver._groups_defs inside).items).foldlM (fun refs p => groupRefs ignore p refs)
    ∅).map AList.keys

/-! ## What is referenced -/

/-- The name is the `ref` of a map, at some depth of a list of maps. -/
inductive NamedIn (n : Value) : Yaml → Prop
  | item {items : List Yaml} {j : Yaml} (hj : j ∈ items) (h : NamedIn n j) :
      NamedIn n (.list items)
  | entry {entries : List (String × Yaml)} {k : String} {defn : List (String × Yaml)} {r : Yaml}
      (hk : (k, .dict defn) ∈ entries) (hr : defn.lookup "ref" = some r) (h : hashed r = .ok n) :
      NamedIn n (.dict entries)

/-- A map's definition can be searched for a `ref`, and what stands there is a name. -/
def Searchable (y : Yaml) : Prop :=
  (∃ defn, y = .dict defn ∧ ∀ r, defn.lookup "ref" = some r → ∃ n, hashed r = .ok n)
    ∨ y.hasKey "ref" = .ok false

/-- All maps, at all depths, can be searched. -/
inductive Readable : Yaml → Prop
  | list {items : List Yaml} (h : ∀ j ∈ items, Readable j) : Readable (.list items)
  | dict {entries : List (String × Yaml)} (h : ∀ p ∈ entries, Searchable p.2) :
      Readable (.dict entries)
  | other {y : Yaml} (hlist : ∀ items, y ≠ .list items) (hdict : ∀ entries, y ≠ .dict entries) :
      Readable y

/-- A definition with these values names `n`, itself or through a map. -/
def References (field : String → Option Yaml) (n : Value) : Prop :=
  (∃ r, field "ref" = some r ∧ hashed r = .ok n)
    ∨ ∃ items, field "map" = some (.list items) ∧ NamedIn n (.list items)

/-- What a definition with these values refers to can be made out. -/
def Legible (field : String → Option Yaml) : Prop :=
  (∀ r, field "ref" = some r → ∃ n, hashed r = .ok n)
    ∧ ∀ m, field "map" = some m → ∃ l, iterate m = .ok l ∧ ∀ j ∈ l, Readable j

/-! ## Gathering -/

/-- What a step of gathering does: it adds these names where `ok` holds, and raises elsewhere. -/
def Adds (f : Refs → Except Exn Refs) (ok : Prop) (names : Value → Prop) : Prop :=
  ∀ refs, (ok → ∃ refs', f refs = .ok refs' ∧ ∀ n, n ∈ refs' ↔ n ∈ refs ∨ names n)
    ∧ (¬ ok → ∃ e, f refs = .error e)

theorem Adds.congr {f : Refs → Except Exn Refs} {ok ok' : Prop} {names names' : Value → Prop}
    (h : Adds f ok names) (hok : ok ↔ ok') (hnames : ∀ n, names n ↔ names' n) :
    Adds f ok' names' := by
  intro refs
  rw [← hok]
  refine ⟨fun h' => ?_, (h refs).2⟩
  obtain ⟨refs', hrefs', hmem⟩ := (h refs).1 h'
  exact ⟨refs', hrefs', fun n => by rw [hmem, hnames]⟩

/-- Two steps, one after the other. -/
theorem Adds.andThen {f g : Refs → Except Exn Refs} {okf okg : Prop} {namesf namesg : Value → Prop}
    (hf : Adds f okf namesf) (hg : Adds g okg namesg) :
    Adds (fun refs => f refs >>= g) (okf ∧ okg) (fun n => namesf n ∨ namesg n) := by
  intro refs
  dsimp only
  constructor
  · rintro ⟨hokf, hokg⟩
    obtain ⟨refs₁, h₁, hmem₁⟩ := (hf refs).1 hokf
    obtain ⟨refs₂, h₂, hmem₂⟩ := (hg refs₁).1 hokg
    refine ⟨refs₂, by rw [h₁, Except.ok_bind, h₂], fun n => ?_⟩
    rw [hmem₂, hmem₁, or_assoc]
  · intro hnot
    by_cases hokf : okf
    · obtain ⟨refs₁, h₁, -⟩ := (hf refs).1 hokf
      rw [h₁, Except.ok_bind]
      exact (hg refs₁).2 (fun hokg => hnot ⟨hokf, hokg⟩)
    · obtain ⟨e, he⟩ := (hf refs).2 hokf
      exact ⟨e, by rw [he]; rfl⟩

theorem adds_nothing : Adds Except.ok True (fun _ => False) :=
  fun refs => ⟨fun _ => ⟨refs, rfl, fun n => by simp⟩, fun h => absurd trivial h⟩

/-- A loop of steps. -/
theorem Adds.foldlM {α : Type} {f : α → Refs → Except Exn Refs} {ok : α → Prop}
    {names : α → Value → Prop} {l : List α} (h : ∀ a ∈ l, Adds (f a) (ok a) (names a)) :
    Adds (fun refs => l.foldlM (fun refs a => f a refs) refs) (∀ a ∈ l, ok a)
      (fun n => ∃ a ∈ l, names a n) := by
  induction l with
  | nil => exact adds_nothing.congr (by simp) (fun n => by simp)
  | cons a l ih =>
    have hstep := (h a List.mem_cons_self).andThen
      (ih (fun b hb => h b (List.mem_cons_of_mem a hb)))
    exact hstep.congr List.forall_mem_cons.symm (fun n => by rw [List.exists_mem_cons_iff])

theorem addRef_adds (y : Yaml) :
    Adds (addRef y) (∃ n, hashed y = .ok n) (fun n => hashed y = .ok n) := by
  intro refs
  rw [addRef]
  cases hy : hashed y with
  | error e => exact ⟨fun ⟨n, h⟩ => (by cases h), fun _ => ⟨e, rfl⟩⟩
  | ok m =>
    refine ⟨fun _ => ⟨_, rfl, ?_⟩, fun h => absurd ⟨m, rfl⟩ h⟩
    intro n
    show n ∈ AList.insert m true refs ↔ n ∈ refs ∨ (Except.ok m : Except Exn Value) = .ok n
    rw [AList.mem_insert, Except.ok.injEq, eq_comm (a := m), or_comm]

/-- What is no dictionary adds no name: it raises where it has a `ref` in it. -/
theorem mapRef_adds_of_ne_dict {y : Yaml} (hdict : ∀ defn, y ≠ .dict defn)
    (hget : ∃ e, y.getKey "ref" = .error e) :
    Adds (mapRef y) (Searchable y) (fun _ => False) := by
  have hsearch : Searchable y ↔ y.hasKey "ref" = .ok false := by
    rw [Searchable]
    exact or_iff_right (fun ⟨defn, h, _⟩ => hdict defn h)
  intro refs
  rw [hsearch, mapRef]
  cases hkey : y.hasKey "ref" with
  | error e => exact ⟨fun h => (by cases h), fun _ => ⟨e, rfl⟩⟩
  | ok b =>
    cases b with
    | false => exact ⟨fun _ => ⟨refs, rfl, fun n => by simp⟩, fun h => absurd rfl h⟩
    | true =>
      obtain ⟨e, he⟩ := hget
      exact ⟨fun h => (by cases h), fun _ => ⟨e, by rw [he]; rfl⟩⟩

/-- The names that a map's definition adds. -/
theorem mapRef_adds (y : Yaml) : Adds (mapRef y) (Searchable y)
    (fun n => ∃ defn r, y = .dict defn ∧ defn.lookup "ref" = some r ∧ hashed r = .ok n) := by
  have hother : (∀ defn, y ≠ .dict defn) → (∃ e, y.getKey "ref" = .error e) →
      Adds (mapRef y) (Searchable y)
        (fun n => ∃ defn r, y = .dict defn ∧ defn.lookup "ref" = some r ∧ hashed r = .ok n) := by
    intro hdict hget
    refine (mapRef_adds_of_ne_dict hdict hget).congr Iff.rfl (fun n => ?_)
    rw [false_iff]
    rintro ⟨defn, r, h, -⟩
    exact hdict defn h
  cases y with
  | dict defn =>
    cases hr : defn.lookup "ref" with
    | none =>
      intro refs
      have hkey : (Yaml.dict defn).hasKey "ref" = .ok false := by rw [Yaml.hasKey, hr]; rfl
      refine ⟨fun _ => ⟨refs, by rw [mapRef, hkey]; rfl, ?_⟩, fun h => absurd (Or.inr hkey) h⟩
      intro n
      simp [hr]
    | some r =>
      have hkey : (Yaml.dict defn).hasKey "ref" = .ok true := by rw [Yaml.hasKey, hr]; rfl
      have hget : (Yaml.dict defn).getKey "ref" = .ok r := by rw [Yaml.getKey, hr]
      have hmap : mapRef (.dict defn) = addRef r := by
        funext refs
        rw [mapRef, hkey, hget]
        rfl
      rw [hmap]
      refine (addRef_adds r).congr ?_ ?_
      · simp [Searchable, hkey, hr]
      · intro n
        simp [hr]
  | null => exact hother (fun _ h => by cases h) ⟨_, rfl⟩
  | bool b => exact hother (fun _ h => by cases h) ⟨_, rfl⟩
  | int n => exact hother (fun _ h => by cases h) ⟨_, rfl⟩
  | float text => exact hother (fun _ h => by cases h) ⟨_, rfl⟩
  | str s => exact hother (fun _ h => by cases h) ⟨_, rfl⟩
  | list items => exact hother (fun _ h => by cases h) ⟨_, rfl⟩

theorem namedIn_list {n : Value} {items : List Yaml} :
    NamedIn n (.list items) ↔ ∃ j ∈ items, NamedIn n j :=
  ⟨fun h => by cases h with | item hj h => exact ⟨_, hj, h⟩, fun ⟨_, hj, h⟩ => .item hj h⟩

theorem readable_list {items : List Yaml} :
    Readable (.list items) ↔ ∀ j ∈ items, Readable j := by
  constructor
  · intro h
    cases h with
    | list h => exact h
    | other hlist _ => exact absurd rfl (hlist items)
  · exact .list

theorem namedIn_dict {n : Value} {entries : List (String × Yaml)} : NamedIn n (.dict entries)
    ↔ ∃ p ∈ entries, ∃ defn r, p.2 = .dict defn ∧ defn.lookup "ref" = some r ∧ hashed r = .ok n := by
  constructor
  · intro h
    cases h with
    | entry hk hr h => exact ⟨_, hk, _, _, rfl, hr, h⟩
  · rintro ⟨⟨k, y⟩, hp, defn, r, rfl, hr, h⟩
    exact .entry hp hr h

theorem readable_dict {entries : List (String × Yaml)} :
    Readable (.dict entries) ↔ ∀ p ∈ entries, Searchable p.2 := by
  constructor
  · intro h
    cases h with
    | dict h => exact h
    | other _ hdict => exact absurd rfl (hdict entries)
  · exact .dict

theorem refsOf_adds_scalar {y : Yaml} (href : refsOf y = Except.ok)
    (hlist : ∀ items, y ≠ .list items) (hdict : ∀ entries, y ≠ .dict entries) :
    Adds (refsOf y) (Readable y) (fun n => NamedIn n y) := by
  intro refs
  refine ⟨fun _ => ⟨refs, by rw [href], ?_⟩, fun h => absurd (.other hlist hdict) h⟩
  intro n
  refine ⟨Or.inl, fun h => h.resolve_right ?_⟩
  intro hn
  cases hn with
  | item => exact hlist _ rfl
  | entry => exact hdict _ rfl

mutual

/-- Maps at all depths add their names. -/
theorem refsOf_adds : ∀ j : Yaml, Adds (refsOf j) (Readable j) (fun n => NamedIn n j)
  | .list items => by
    refine (refsOfItems_adds items).congr readable_list.symm (fun n => namedIn_list.symm)
  | .dict entries => by
    refine (Adds.foldlM (fun p _ => mapRef_adds p.2)).congr readable_dict.symm
      (fun n => namedIn_dict.symm)
  | .null => refsOf_adds_scalar rfl (fun _ h => by cases h) (fun _ h => by cases h)
  | .bool _ => refsOf_adds_scalar rfl (fun _ h => by cases h) (fun _ h => by cases h)
  | .int _ => refsOf_adds_scalar rfl (fun _ h => by cases h) (fun _ h => by cases h)
  | .float _ => refsOf_adds_scalar rfl (fun _ h => by cases h) (fun _ h => by cases h)
  | .str _ => refsOf_adds_scalar rfl (fun _ h => by cases h) (fun _ h => by cases h)

theorem refsOfItems_adds : ∀ items : List Yaml, Adds (refsOfItems items)
    (∀ j ∈ items, Readable j) (fun n => ∃ j ∈ items, NamedIn n j)
  | [] => adds_nothing.congr (by simp) (fun n => by simp)
  | j :: items => ((refsOf_adds j).andThen (refsOfItems_adds items)).congr
      List.forall_mem_cons.symm (fun n => by rw [List.exists_mem_cons_iff])

end

/-- Only the items of a list can name anything. -/
theorem exists_namedIn_iff {m : Yaml} {n : Value} :
    (∃ l, iterate m = .ok l ∧ ∃ j ∈ l, NamedIn n j)
      ↔ ∃ items, m = .list items ∧ NamedIn n (.list items) := by
  have hstr : ∀ s, ¬ NamedIn n (.str s) := fun s h => by cases h
  cases m with
  | list items => simp [iterate, namedIn_list]
  | dict entries => simp [iterate, hstr]
  | str s => simp [iterate, hstr]
  | _ => simp [iterate]

/-- The `map` of a definition adds what its maps name. -/
theorem iterate_adds (m : Yaml) :
    Adds (fun refs => iterate m >>= fun l => l.foldlM (fun refs j => refsOf j refs) refs)
      (∃ l, iterate m = .ok l ∧ ∀ j ∈ l, Readable j)
      (fun n => ∃ items, m = .list items ∧ NamedIn n (.list items)) := by
  cases hm : iterate m with
  | error e =>
    intro refs
    exact ⟨fun ⟨l, h, _⟩ => (by cases h), fun _ => ⟨e, rfl⟩⟩
  | ok l =>
    have hloop : Adds (fun refs => l.foldlM (fun refs j => refsOf j refs) refs)
        (∀ j ∈ l, Readable j) (fun n => ∃ j ∈ l, NamedIn n j) :=
      Adds.foldlM (fun j _ => refsOf_adds j)
    simp only [Except.ok_bind]
    apply hloop.congr
    · simp
    · intro n
      rw [← exists_namedIn_iff, hm]
      simp

/-- A part of a definition that may be missing. -/
theorem adds_option {f : Yaml → Refs → Except Exn Refs} {ok : Yaml → Prop}
    {names : Yaml → Value → Prop} (h : ∀ y, Adds (f y) (ok y) (names y)) (part : Option Yaml) :
    Adds (fun refs => match part with
        | some y => f y refs
        | none => .ok refs)
      (∀ y, part = some y → ok y) (fun n => ∃ y, part = some y ∧ names y n) := by
  cases part with
  | none => exact adds_nothing.congr (by simp) (fun n => by simp)
  | some y => exact (h y).congr (by simp) (fun n => by simp)

theorem mem_foldl_insert (l : List Value) (refs : Refs) (n : Value) :
    n ∈ l.foldl (fun refs x => AList.insert x true refs) refs ↔ n ∈ refs ∨ n ∈ l := by
  induction l generalizing refs with
  | nil => simp
  | cons x l ih => rw [List.foldl_cons, ih, AList.mem_insert, List.mem_cons, or_comm (a := n = x),
      or_assoc]

/-- What a definition adds. -/
theorem defRefs_adds (r : Def) :
    Adds (defRefs r) (Legible r.2.lookup) (References r.2.lookup) := by
  have hparts := (adds_option addRef_adds (r.2.lookup "ref")).andThen
    (adds_option iterate_adds (r.2.lookup "map"))
  have hrefs : _refs r = (match r.2.lookup "ref" with
      | some y => addRef y ∅
      | none => .ok ∅) >>= fun refs => match r.2.lookup "map" with
        | some v => iterate v >>= fun l => l.foldlM (fun refs j => refsOf j refs) refs
        | none => .ok refs := by
    rw [_refs]
    cases r.2.lookup "ref" <;> cases r.2.lookup "map" <;> rfl
  have hnames : ∀ n, ((∃ y, r.2.lookup "ref" = some y ∧ hashed y = .ok n)
      ∨ ∃ m, r.2.lookup "map" = some m ∧ ∃ items, m = .list items ∧ NamedIn n (.list items))
        ↔ References r.2.lookup n := by
    intro n
    apply or_congr_right
    constructor
    · rintro ⟨m, hm, items, rfl, h⟩
      exact ⟨items, hm, h⟩
    · rintro ⟨items, hm, h⟩
      exact ⟨_, hm, items, rfl, h⟩
  obtain ⟨hok, herror⟩ := hparts.congr Iff.rfl hnames ∅
  intro refs
  constructor
  · intro h
    obtain ⟨names, hres, hmem⟩ := hok h
    refine ⟨_, by rw [defRefs, hrefs.trans hres]; rfl, fun n => ?_⟩
    rw [mem_foldl_insert, ← AList.mem_keys, hmem]
    simp
  · intro h
    obtain ⟨e, he⟩ := herror h
    exact ⟨e, by rw [defRefs, hrefs.trans he]; rfl⟩

/-- What a group adds. -/
theorem groupRefs_adds (ignore : List String) (p : String × Group) :
    Adds (groupRefs ignore p) (p.1 ∉ ignore → ∀ d ∈ p.2.defs, Legible d.2.lookup)
      (fun n => p.1 ∉ ignore ∧ ∃ d ∈ p.2.defs, References d.2.lookup n) := by
  by_cases hignore : p.1 ∈ ignore
  · have hnothing : groupRefs ignore p = Except.ok := by
      funext refs
      rw [groupRefs, if_pos hignore]
    rw [hnothing]
    exact adds_nothing.congr (by simp [hignore]) (fun n => by simp [hignore])
  · have hloop : groupRefs ignore p
        = fun refs => p.2.defs.foldlM (fun refs r => defRefs r refs) refs := by
      funext refs
      rw [groupRefs, if_neg hignore]
    rw [hloop]
    exact (Adds.foldlM (fun d _ => defRefs_adds d)).congr (by simp [hignore])
      (fun n => by simp [hignore])

/-- The references of a driver: it raises unless all of its definitions that count are legible. -/
theorem refs_spec (driver : Driver) (o : IterOrder) (agent : Value) (inside : String)
    (ignore : List String) :
    ((∀ g group, (driver._groups_defs inside).lookup g = some group → g ∉ ignore →
        ∀ d ∈ group.defs, Legible d.2.lookup) →
      ∃ names, driver.refs o agent inside ignore = .ok names ∧ names.Nodup
        ∧ ∀ n, n ∈ names ↔ ∃ g group, (driver._groups_defs inside).lookup g = some group
          ∧ g ∉ ignore ∧ ∃ d ∈ group.defs, References d.2.lookup n)
    ∧ (¬ (∀ g group, (driver._groups_defs inside).lookup g = some group → g ∉ ignore →
        ∀ d ∈ group.defs, Legible d.2.lookup) →
      ∃ e, driver.refs o agent inside ignore = .error e) := by
  have hmem : ∀ g group, (g, group) ∈ o.order (driver._groups_defs inside).items
      ↔ (driver._groups_defs inside).lookup g = some group := fun g group => by
    rw [o.mem_order, Dict.mem_items]
  have hgroups := Adds.foldlM (l := o.order (driver._groups_defs inside).items)
    (fun p _ => groupRefs_adds ignore p)
  obtain ⟨hok, herror⟩ := hgroups ∅
  beta_reduce at hok herror
  have hcond : (∀ p ∈ o.order (driver._groups_defs inside).items, p.1 ∉ ignore →
        ∀ d ∈ p.2.defs, Legible d.2.lookup)
      ↔ ∀ g group, (driver._groups_defs inside).lookup g = some group → g ∉ ignore →
        ∀ d ∈ group.defs, Legible d.2.lookup := by
    simp only [Prod.forall, hmem]
  rw [← hcond]
  constructor
  · intro h
    obtain ⟨refs, hrefs, hnames⟩ := hok h
    refine ⟨refs.keys, by rw [Driver.refs, hrefs]; rfl, refs.keys_nodup, fun n => ?_⟩
    rw [← AList.mem_keys, hnames]
    simp only [Prod.exists, hmem, AList.notMem_empty, false_or]
  · intro h
    obtain ⟨e, he⟩ := herror h
    exact ⟨e, by rw [Driver.refs, he]; rfl⟩

/-! ## From the file to the driver -/

/-- The value that the definitions of a stanza give. -/
def ownField (s : Stanza) (key : String) : Option Yaml :=
  s.reverse.findSome? (fun p => p.2.lookup key)

/-- A value of a definition: its own, else the default of its group, else that of the file. -/
def Conf.field (conf : Conf) (group : GroupConf) (s : Stanza) (key : String) : Option Yaml :=
  (ownField s key).or ((group.defaults.lookup key).or (conf.defaults.lookup key))

theorem lookup_foldl_overlay (s : Stanza) (d : Dict String Yaml) (key : String) :
    (s.foldl (fun this p => this.overlay p.2) d).lookup key
      = (ownField s key).or (d.lookup key) := by
  induction s generalizing d with
  | nil => rfl
  | cons p s ih =>
    rw [List.foldl_cons, ih, Dict.lookup_overlay, ownField, ownField, List.reverse_cons,
      List.findSome?_append, Option.or_assoc]
    simp

/-- The definition made from a stanza has its values, and an agent. -/
structure MadeFrom (conf : Conf) (group : GroupConf) (s : Stanza) (d : Def) : Prop where
  ref_eq : d.2.lookup "ref" = conf.field group s "ref"
  map_eq : d.2.lookup "map" = conf.field group s "map"
  agent : ∃ a n, conf.field group s "agent" = some a ∧ hashed a = .ok n

theorem addStanza_eq_ok {conf : Conf} {group : GroupConf} {s : List Def × Dict Value Yaml}
    {stanza : Stanza} {s' : List Def × Dict Value Yaml}
    (h : addStanza (AList.erase "settings" (get_defaults conf group)) s stanza = .ok s') :
    ∃ d, s'.1 = s.1 ++ [d] ∧ MadeFrom conf group stanza d := by
  rw [addStanza] at h
  obtain ⟨⟨d, agent⟩, hd, h⟩ := Except.bind_eq_ok.mp h
  obtain ⟨a, ha, h⟩ := Except.bind_eq_ok.mp h
  cases h
  refine ⟨d, rfl, ?_⟩
  have hfield : ∀ key, key ≠ "settings" →
      (stanza.foldl (fun this p => Dict.overlay this p.2)
        (AList.erase "settings" (get_defaults conf group))).lookup key
        = conf.field group stanza key := by
    intro key hkey
    rw [lookup_foldl_overlay, Dict.lookup_erase_eq, if_neg hkey, get_defaults,
      Dict.lookup_overlay, Conf.field]
  simp only [definition_stanza] at hd
  cases hlast : stanza.getLast? with
  | none => simp [hlast] at hd
  | some p =>
    simp only [hlast, hfield "agent" (by decide)] at hd
    cases hagent : conf.field group stanza "agent" with
    | none => simp [hagent] at hd
    | some y =>
      simp only [hagent, Except.ok.injEq, Prod.mk.injEq] at hd
      obtain ⟨rfl, rfl⟩ := hd
      exact ⟨hfield "ref" (by decide), hfield "map" (by decide), y, a, hagent, ha⟩

/-- What became of a group of the file. -/
def GroupMade (conf : Conf) : Option GroupConf → Option Group → Prop
  | none, none => True
  | some c, some group => List.Forall₂ (MadeFrom conf c) (c.defs.getD []) group.defs
  | _, _ => False

theorem addGroup_eq_ok {name : String} {conf : Conf} {p : String × GroupConf}
    {s s' : Dict String Group × Dict Value Yaml} (h : addGroup name conf s p = .ok s') :
    ∃ group, s'.1 = AList.insert p.1 group s.1 ∧ GroupMade conf (some p.2) (some group) := by
  rw [addGroup] at h
  cases hdefs : p.2.defs with
  | none =>
    simp only [hdefs] at h
    split_ifs at h
    cases h
    exact ⟨_, rfl, by simp [GroupMade, hdefs]⟩
  | some stanzas =>
    simp only [hdefs] at h
    obtain ⟨⟨defs, agents⟩, hloop, h⟩ := Except.bind_eq_ok.mp h
    cases h
    refine ⟨_, rfl, ?_⟩
    rw [GroupMade, hdefs, Option.getD_some]
    -- the definitions made so far are those of the stanzas gone through
    have hinv := Except.foldlM_rest
      (I := fun rest (t : List Def × Dict Value Yaml) => ∃ done, stanzas = done ++ rest
        ∧ List.Forall₂ (MadeFrom conf p.2) done t.1) ?_ ⟨[], rfl, .nil⟩ hloop
    · obtain ⟨done, hdone, hmade⟩ := hinv
      rwa [hdone, List.append_nil]
    · rintro stanza rest t t' ⟨done, rfl, hmade⟩ hstep
      obtain ⟨d, ht', hd⟩ := addStanza_eq_ok hstep
      refine ⟨done ++ [stanza], by simp, ?_⟩
      rw [ht']
      exact List.rel_append hmade (.cons hd .nil)

/-- Every group of the file has become one of the driver, and there are no others. -/
theorem process_eq_ok {name : String} {o : IterOrder} {conf : Conf} {field : Dict String GroupConf}
    {agents agents' : Dict Value Yaml} {groups : Dict String Group}
    (h : _process name o conf field agents = .ok (groups, agents')) (g : String) :
    GroupMade conf (field.lookup g) (groups.lookup g) := by
  have hinv := Except.foldlM_rest
    (I := fun rest (t : Dict String Group × Dict Value Yaml) =>
      (∀ p ∈ rest, field.lookup p.1 = some p.2)
        ∧ ∀ g, (∀ c, (g, c) ∉ rest) → GroupMade conf (field.lookup g) (t.1.lookup g)) ?_ ?_ h
  · exact hinv.2 g (fun _ => List.not_mem_nil)
  · rintro ⟨g₀, c⟩ rest t t' ⟨hmem, hmade⟩ hstep
    obtain ⟨group, ht', hgroup⟩ := addGroup_eq_ok hstep
    refine ⟨fun p hp => hmem p (List.mem_cons_of_mem _ hp), fun g hg => ?_⟩
    rw [ht', Dict.lookup_insert_eq]
    split_ifs with hkey
    · subst hkey
      rw [hmem (g, c) List.mem_cons_self]
      exact hgroup
    · apply hmade g
      intro c' hc'
      rcases List.mem_cons.mp hc' with heq | hc'
      · exact hkey (congrArg Prod.fst heq)
      · exact hg c' hc'
  · refine ⟨fun p hp => Dict.mem_items.mp (o.mem_order.mp hp), fun g hg => ?_⟩
    have hnone : field.lookup g = none := by
      cases hlookup : field.lookup g with
      | none => rfl
      | some c => exact absurd (o.mem_order.mpr (Dict.mem_items.mpr hlookup)) (hg c)
    rw [hnone]
    trivial

/-! ## Agents -/

def Conf.groups (conf : Conf) (inside : String) : Dict String GroupConf :=
  if inside = "iterative_groups" then conf.iterative_definition else conf.definition

/-- The name is referenced by a definition, of a group that is not ignored, whose agent satisfies
`P`. -/
def Conf.Referenced (conf : Conf) (inside : String) (ignore : List String) (P : Value → Prop)
    (n : Value) : Prop :=
  ∃ g group, (conf.groups inside).lookup g = some group ∧ g ∉ ignore
    ∧ ∃ s ∈ group.defs.getD [], (∃ a agent, conf.field group s "agent" = some a
      ∧ hashed a = .ok agent ∧ P agent) ∧ References (conf.field group s) n

/-- All definitions of groups that are not ignored are legible. -/
def Conf.Legible (conf : Conf) (inside : String) (ignore : List String) : Prop :=
  ∀ g group, (conf.groups inside).lookup g = some group → g ∉ ignore →
    ∀ s ∈ group.defs.getD [], DriverRefs.Legible (conf.field group s)

/-- The references for an agent are, once each, those of the definitions assigned to it. -/
def AgentRefs (conf : Conf) (driver : Driver) (o : IterOrder) (agent : Value) (inside : String)
    (ignore : List String) : Prop :=
  ∃ names, driver.refs o agent inside ignore = .ok names ∧ names.Nodup
    ∧ ∀ n, n ∈ names ↔ conf.Referenced inside ignore (fun a => a = agent) n

theorem groups_made {name : String} {o : IterOrder} {conf : Conf} {driver : Driver}
    (h : process name o conf = .ok driver) (inside g : String) :
    GroupMade conf ((conf.groups inside).lookup g) ((driver._groups_defs inside).lookup g) := by
  rw [process] at h
  obtain ⟨agents, -, h⟩ := Except.bind_eq_ok.mp h
  obtain ⟨⟨groups, agents₁⟩, hgroups, h⟩ := Except.bind_eq_ok.mp h
  dsimp only at h
  split_ifs at h
  obtain ⟨⟨iterative, agents₂⟩, hiterative, h⟩ := Except.bind_eq_ok.mp h
  cases h
  unfold Conf.groups Driver._groups_defs
  split_ifs
  · exact process_eq_ok hiterative g
  · exact process_eq_ok hgroups g

theorem MadeFrom.references_iff {conf : Conf} {group : GroupConf} {s : Stanza} {d : Def}
    (h : MadeFrom conf group s d) (n : Value) :
    References d.2.lookup n ↔ References (conf.field group s) n := by
  rw [References, References, h.ref_eq, h.map_eq]

theorem MadeFrom.legible_iff {conf : Conf} {group : GroupConf} {s : Stanza} {d : Def}
    (h : MadeFrom conf group s d) :
    Legible d.2.lookup ↔ Legible (conf.field group s) := by
  rw [Legible, Legible, h.ref_eq, h.map_eq]

/-- What holds of the definitions of the driver's groups, said of the stanzas of the file. -/
theorem exists_def_iff {name : String} {o : IterOrder} {conf : Conf} {driver : Driver}
    (h : process name o conf = .ok driver) (inside : String) (ignore : List String) (n : Value) :
    (∃ g group, (driver._groups_defs inside).lookup g = some group ∧ g ∉ ignore
        ∧ ∃ d ∈ group.defs, References d.2.lookup n)
      ↔ conf.Referenced inside ignore (fun _ => True) n := by
  constructor
  · rintro ⟨g, group, hg, hignore, d, hd, hn⟩
    have hmade := groups_made h inside g
    rw [hg] at hmade
    cases hc : (conf.groups inside).lookup g with
    | none => rw [hc] at hmade; exact hmade.elim
    | some c =>
      rw [hc] at hmade
      obtain ⟨s, hs, hsd⟩ := exists_of_forall₂ hmade hd
      obtain ⟨a, agent, ha, hagent⟩ := hsd.agent
      exact ⟨g, c, hc, hignore, s, hs, ⟨a, agent, ha, hagent, trivial⟩,
        (hsd.references_iff n).mp hn⟩
  · rintro ⟨g, c, hc, hignore, s, hs, -, hn⟩
    have hmade := groups_made h inside g
    rw [hc] at hmade
    cases hg : (driver._groups_defs inside).lookup g with
    | none => rw [hg] at hmade; exact hmade.elim
    | some group =>
      rw [hg] at hmade
      obtain ⟨d, hd, hsd⟩ := exists_of_forall₂ hmade.flip hs
      exact ⟨g, group, hg, hignore, d, hd, (hsd.references_iff n).mpr hn⟩

theorem legible_iff {name : String} {o : IterOrder} {conf : Conf} {driver : Driver}
    (h : process name o conf = .ok driver) (inside : String) (ignore : List String) :
    (∀ g group, (driver._groups_defs inside).lookup g = some group → g ∉ ignore →
        ∀ d ∈ group.defs, Legible d.2.lookup) ↔ conf.Legible inside ignore := by
  constructor
  · intro hlegible g c hc hignore s hs
    have hmade := groups_made h inside g
    rw [hc] at hmade
    cases hg : (driver._groups_defs inside).lookup g with
    | none => rw [hg] at hmade; exact hmade.elim
    | some group =>
      rw [hg] at hmade
      obtain ⟨d, hd, hsd⟩ := exists_of_forall₂ hmade.flip hs
      exact (hsd.legible_iff).mp (hlegible g group hg hignore d hd)
  · intro hlegible g group hg hignore d hd
    have hmade := groups_made h inside g
    rw [hg] at hmade
    cases hc : (conf.groups inside).lookup g with
    | none => rw [hc] at hmade; exact hmade.elim
    | some c =>
      rw [hc] at hmade
      obtain ⟨s, hs, hsd⟩ := exists_of_forall₂ hmade hd
      exact (hsd.legible_iff).mpr (hlegible g c hc hignore s hs)

theorem Conf.Referenced.mono {conf : Conf} {inside : String} {ignore : List String}
    {P Q : Value → Prop} (hPQ : ∀ a, P a → Q a) {n : Value}
    (h : conf.Referenced inside ignore P n) : conf.Referenced inside ignore Q n := by
  obtain ⟨g, group, hg, hignore, s, hs, ⟨a, agent, ha, hagent, hP⟩, hn⟩ := h
  exact ⟨g, group, hg, hignore, s, hs, ⟨a, agent, ha, hagent, hPQ agent hP⟩, hn⟩

/-- **The references for an agent are those assigned to it exactly if all definitions of the file
are legible and the other agents' definitions refer to nothing else**: the agent is never looked
at. -/
theorem agentRefs_iff {name : String} {o : IterOrder} {conf : Conf} {driver : Driver}
    (h : process name o conf = .ok driver) (agent : Value) (inside : String)
    (ignore : List String) :
    AgentRefs conf driver o agent inside ignore ↔ conf.Legible inside ignore
      ∧ ∀ n, conf.Referenced inside ignore (fun a => a ≠ agent) n →
        conf.Referenced inside ignore (fun a => a = agent) n := by
  obtain ⟨hok, herror⟩ := refs_spec driver o agent inside ignore
  simp only [exists_def_iff h] at hok
  rw [legible_iff h] at hok herror
  constructor
  · rintro ⟨names, hnames, -, hmem⟩
    have hlegible : conf.Legible inside ignore := by
      by_contra hnot
      obtain ⟨e, he⟩ := herror hnot
      rw [he] at hnames
      cases hnames
    refine ⟨hlegible, fun n hn => ?_⟩
    obtain ⟨names', hnames', -, hmem'⟩ := hok hlegible
    obtain rfl := Except.ok.inj (hnames.symm.trans hnames')
    exact (hmem n).mp ((hmem' n).mpr (hn.mono (fun _ _ => trivial)))
  · rintro ⟨hlegible, hothers⟩
    obtain ⟨names, hnames, hnodup, hmem⟩ := hok hlegible
    refine ⟨names, hnames, hnodup, fun n => ?_⟩
    rw [hmem]
    constructor
    · rintro ⟨g, group, hg, hignore, s, hs, ⟨a, b, ha, hb, -⟩, hn⟩
      by_cases hagent : b = agent
      · exact ⟨g, group, hg, hignore, s, hs, ⟨a, b, ha, hb, hagent⟩, hn⟩
      · exact hothers n ⟨g, group, hg, hignore, s, hs, ⟨a, b, ha, hb, hagent⟩, hn⟩
    · exact fun hn => hn.mono (fun _ _ => trivial)

/-! A driver with one agent, and one with two. -/

/-- Only the column that is read by SNMP. -/
def aliasConf : Conf where
  defaults := Dict.ofList [("agent", .str "SNMP")]
  definition := Dict.ofList [("status", { defs := some [
    [("alias", Dict.ofList [("ref", .str "ifAlias")])]] })]

def aliasDriver : Driver where
  agentSettings := Dict.ofList [(.str "SNMP", .dict [])]
  groupsDefs := Dict.ofList [("status", ⟨Dict.ofList [("agent", .str "SNMP")], [
    ("alias", Dict.ofList [("agent", .str "SNMP"), ("ref", .str "ifAlias")])]⟩)]
  iterativeGroupsDefs := ∅

theorem process_alias : process "alias.yaml" IterOrder.stored aliasConf = .ok aliasDriver := by
  rfl

theorem agentRefs_iff_alias :
    AgentRefs aliasConf aliasDriver IterOrder.stored (.str "SNMP") "groups" [] := by
  refine (agentRefs_iff process_alias (.str "SNMP") "groups" []).mpr
    ⟨fun g group hg _ s hs => ?_, fun n hn => ?_⟩
  · have hitem := Dict.mem_items.mpr hg
    obtain ⟨rfl, rfl⟩ := Prod.mk.inj (List.mem_singleton.mp hitem)
    obtain rfl := List.mem_singleton.mp hs
    refine ⟨fun r hr => ⟨.str "ifAlias", ?_⟩, fun m hm => ?_⟩
    · obtain rfl := Option.some.inj hr
      rfl
    · cases hm
  · -- no definition has another agent
    obtain ⟨g, group, hg, -, s, hs, ⟨a, agent, ha, hagent, hother⟩, -⟩ := hn
    have hitem := Dict.mem_items.mpr hg
    obtain ⟨rfl, rfl⟩ := Prod.mk.inj (List.mem_singleton.mp hitem)
    obtain rfl := List.mem_singleton.mp hs
    obtain rfl := Option.some.inj ha
    exact absurd (Except.ok.inj hagent).symm hother

/-- The first lines of a driver for ports: one column is read from the command line. -/
def portsConf : Conf where
  defaults := Dict.ofList [("agent", .str "SNMP")]
  definition := Dict.ofList [("status", { defs := some [
    [("alias", Dict.ofList [("ref", .str "ifAlias")])],
    [("duplex", Dict.ofList [("ref", .str "show interfaces"), ("agent", .str "CommandLine")])]] })]

/-- The driver of this file. -/
def portsDriver : Driver where
  agentSettings := Dict.ofList [(.str "SNMP", .dict []), (.str "CommandLine", .dict [])]
  groupsDefs := Dict.ofList [("status", ⟨Dict.ofList [("agent", .str "SNMP")], [
    ("alias", Dict.ofList [("agent", .str "SNMP"), ("ref", .str "ifAlias")]),
    ("duplex", Dict.ofList [("ref", .str "show interfaces"), ("agent", .str "CommandLine")])]⟩)]
  iterativeGroupsDefs := ∅

theorem process_ports : process "ports.yaml" IterOrder.stored portsConf = .ok portsDriver := by
  rfl

/-- The agent for SNMP is asked for a command. -/
theorem not_agentRefs_ports : process "ports.yaml" IterOrder.stored portsConf = .ok portsDriver
    ∧ ¬ AgentRefs portsConf portsDriver IterOrder.stored (.str "SNMP") "groups" [] := by
  refine ⟨process_ports, ?_⟩
  rintro ⟨names, hnames, -, hmem⟩
  have hrefs : portsDriver.refs IterOrder.stored (.str "SNMP") "groups" []
      = .ok [.str "show interfaces", .str "ifAlias"] := by
    rfl
  obtain rfl := Except.ok.inj (hnames.symm.trans hrefs)
  obtain ⟨g, group, hg, -, s, hs, ⟨a, agent, ha, hagent, rfl⟩, hn⟩ :=
    (hmem (.str "show interfaces")).mp (by decide)
  have hitem := Dict.mem_items.mpr hg
  obtain ⟨rfl, rfl⟩ := Prod.mk.inj (List.mem_singleton.mp hitem)
  rcases List.mem_cons.mp hs with rfl | hs
  · -- the definition of the agent names another column, and has no maps
    rcases hn with ⟨r, hr, hr'⟩ | ⟨items, hmap, -⟩
    · obtain rfl := Option.some.inj hr
      exact absurd (Value.str.inj (Except.ok.inj hr')) (by decide)
    · cases hmap
  · -- the other one is for the command line
    obtain rfl := List.mem_singleton.mp hs
    obtain rfl := Option.some.inj ha
    exact absurd (Value.str.inj (Except.ok.inj hagent)) (by decide)

end DriverRefs
