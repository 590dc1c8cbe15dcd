/-
# From the configuration to the agents

A device has options for the agents that poll it, in sections: its own, and those of the
setting that a section refers to.  `create_task` writes them all into the data of the task,
each under the name of its section and its own name; the supervisor puts the contents of a
file in the place of an option that names it; and `merge_options` picks those of one agent
out of the data again and lays them over the options that the driver has for the agent.

So an agent is given the device's own option, else that of the setting, else that of the
driver.
-/
import Ptolemy.SchedulerSteps
import Ptolemy.AlertStanzas
import Ptolemy.PollerSupervisor

/-- A text splits at the first `c`. -/
theorem Text.partition_of_toList {c : Char} {s g r : String}
    (hs : s.toList = g.toList ++ c :: r.toList) (hg : c ∉ g.toList) :
    Text.partition c s = (g, true, r) := by
  have hpos : ∀ x ∈ g.toList, (decide (x ≠ c)) = true :=
    fun x hx => decide_eq_true (fun h => hg (h ▸ hx))
  rw [Text.partition, hs, List.takeWhile_append_of_pos hpos, List.dropWhile_append_of_pos hpos,
    List.takeWhile_cons_of_neg (by simp), List.dropWhile_cons_of_neg (by simp), List.append_nil,
    List.drop_one, List.tail_cons, String.ofList_toList, String.ofList_toList]
  simp

open PollerSupervisor (Request Config Assignment validateTask readOptions filePath)

namespace Scheduler

/-! ## The task -/

/-- A section that has options. -/
def isOptions (c : String) : Bool := decide (c ≠ "schedule") && decide (c ≠ "name")

/-- `get_options`: the sections of a node that have options. -/
def getOptions (o : IterOrder) (node : Option Node) : List (String × Dict String Yaml) :=
  match node with
  | none => []
  | some node => (o.order node.sections.items).filter (fun p => isOptions p.1)

/-- The name of an option in the data of a task. -/
def optionName (k i : String) : String := k ++ "_" ++ i

/-- The text of an item of a list. -/
def textOf? : Yaml → Option String
  | .str s => some s
  | _ => none

/-- A task: what is asked for, the seconds between two of them, and the options. -/
structure Task where
  taskId : String
  frequency : Option ℚ
  device : String
  spec : String
  group : Option (Dict String Yaml)
  data : Dict String Yaml

/-- The period and the spread of a pair, where they can be read. -/
def frequencyOf (node : Option Node) (spec : String) : Option ℚ :=
  match node with
  | none => none
  | some node =>
      match getTimeDelta node spec with
      | .ok (some i) =>
          match _delta i with
          | .ok (t, d) => some (t + d)
          | .error _ => none
      | _ => none

/-- The data of a task. -/
def dataOf (o : IterOrder) (node : Option Node) : Dict String Yaml :=
  (getOptions o node).foldl (fun data p =>
    (o.order p.2.items).foldl (fun data q => AList.insert (optionName p.1 q.1) q.2 data) data) ∅

/-- `create_task`. -/
def createTask (o : IterOrder) (p : Parser) (node spec taskId : String) : Except Exn Task :=
  match getNode p.settings p.nodes node with
  | .error _ => .error (.exception ("device " ++ node ++ " is not configured for polling"))
  | .ok n => .ok {
      taskId := taskId
      frequency := frequencyOf n spec
      device := node
      spec := spec
      group := n.bind (fun n => n.sections.lookup "group")
      data := dataOf o n }

/-! ## The options of an agent -/

/-- `s.lower()`, of the ASCII texts that name agents and options. -/
def lower (s : String) : String := String.ofList (s.toList.map Char.toLower)

/-- An option of the files as a job carries it.  Lists hold texts, and a dictionary is no option. -/
def asValue : Yaml → Option Value
  | .null => some .none
  | .bool b => some (.bool b)
  | .int n => some (.int n)
  | .float text => some (.float text)
  | .str s => some (.str s)
  | .list items => (items.mapM textOf?).map Value.list
  | .dict _ => none

/-- A request that carries a task, with all its options. -/
structure Carries (job : Request) (task : Task) : Prop where
  device : job.device = some task.device
  spec : job.spec = some task.spec
  frequency : job.frequency = task.frequency
  data : ∀ k v, job.data.lookup k = some v ↔
    ∃ y, task.data.lookup k = some y ∧ asValue y = some v
  whole : ∀ k y, task.data.lookup k = some y → asValue y ≠ none

/-- The request of a task. -/
def requestOf (task : Task) : Request where
  device := some task.device
  spec := some task.spec
  frequency := task.frequency
  data := Dict.ofList (task.data.items.filterMap (fun q => (asValue q.2).map (fun v => (q.1, v))))

theorem carries_requestOf {task : Task}
    (h : ∀ k y, task.data.lookup k = some y → asValue y ≠ none) : Carries (requestOf task) task where
  device := rfl
  spec := rfl
  frequency := rfl
  data := fun k v => by
    have hmem : ∀ k v, (k, v) ∈ task.data.items.filterMap
        (fun q => (asValue q.2).map (fun v => (q.1, v))) ↔
          ∃ y, task.data.lookup k = some y ∧ asValue y = some v := by
      intro k v
      simp only [List.mem_filterMap, Option.map_eq_some_iff, Prod.mk.injEq, Prod.exists]
      constructor
      · rintro ⟨k', y, hy, v', hv, rfl, rfl⟩
        exact ⟨y, Dict.mem_items.mp hy, hv⟩
      · rintro ⟨y, hy, hv⟩
        exact ⟨k, y, Dict.mem_items.mpr hy, v, hv, rfl, rfl⟩
    rw [requestOf, Dict.lookup_ofList_of_unique, hmem]
    intro k v v' hv hv'
    obtain ⟨y, hy, hv⟩ := (hmem k v).mp hv
    obtain ⟨y', hy', hv'⟩ := (hmem k v').mp hv'
    obtain rfl := Option.some.inj (hy.symm.trans hy')
    exact Option.some.inj (hv.symm.trans hv')
  whole := h

/-- What `poll` hands to `fetch` of the data of a job. -/
def jobOptions (data : Dict String Value) : Dict String Value := data.erase "driver"

/-- `merge_options`. -/
def mergeOptions (o : IterOrder) (agentName : String) (options agentOptions : Dict String Value) :
    Dict String Value :=
  Dict.overlay agentOptions ((o.order options.items).foldl (fun opts p =>
    let parts := Text.partition '_' p.1
    if lower parts.1 = lower agentName then AList.insert (lower parts.2.2) p.2 opts else opts) ∅)

/-! ## What the device has -/

/-- An option after the supervisor has read its file, if it names one. -/
def opened (readFile : String → Option String) : Value → Option Value
  | .str s =>
      if "file".toList.isPrefixOf s.toList then
        match filePath s with
        | some f => (readFile f).map Value.str
        | none => some (.str s)
      else some (.str s)
  | v => some v

/-- The option of the setting that a section refers to. -/
def inherited (settings : Settings) (c : String) (own : List (String × Yaml)) (i : String) :
    Option Yaml :=
  match own.lookup "ref", settings.get? c with
  | some n, some shared => (Dict.ofList ((shared.entriesAt n).getD [])).lookup i
  | _, _ => none

/-- The option of a section: its own, else that of the setting. -/
def configured (settings : Settings) (c : String) (own : Yaml) (i : String) : Option Yaml :=
  match own with
  | .dict own =>
      (if i = "ref" then none else (Dict.ofList own).lookup i).or (inherited settings c own i)
  | _ => none

/-- The parts of a device have some option for an agent under a name in lower case. -/
def HasOption (readFile : String → Option String) (settings : Settings)
    (parts : List (String × Yaml)) (agent x : String) (v : Value) : Prop :=
  ∃ c own i y, (c, own) ∈ parts ∧ isOptions c = true ∧ lower c = lower agent ∧ lower i = x
    ∧ configured settings c own i = some y ∧ (asValue y).bind (opened readFile) = some v

/-- No section has a `_` in its name, and neither two sections nor two options of one section
differ by case alone. -/
structure Plain (settings : Settings) (parts : List (String × Yaml)) : Prop where
  bar : ∀ c own, (c, own) ∈ parts → isOptions c = true → '_' ∉ c.toList
  sections : ∀ c own c' own', (c, own) ∈ parts → (c', own') ∈ parts → isOptions c = true →
    isOptions c' = true → lower c = lower c' → c = c'
  options : ∀ c own, (c, own) ∈ parts → isOptions c = true → ∀ i i' v v',
    configured settings c own i = some v → configured settings c own i' = some v' →
      lower i = lower i' → i = i'

/-! ## The sections of a node -/

theorem lookup_overloaded (l : List (String × Yaml)) (d : Dict String Yaml) (i : String) :
    ((l.filter (fun e => decide (e.1 ≠ "ref"))).foldl (fun d e => AList.insert e.1 e.2 d)
        d).lookup i
      = (if i = "ref" then none else (Dict.ofList l).lookup i).or (d.lookup i) := by
  rw [Dict.ofList, Dict.lookup_foldl_insert, Dict.lookup_foldl_insert, AList.lookup_empty,
    Option.or_none, ← List.filter_reverse, List.find?_filter]
  congr 1
  split_ifs with hi
  · rw [List.find?_eq_none.mpr (fun e _ => by simp [hi]), Option.map_none]
  · congr 2
    funext e
    by_cases he : e.1 = i
    · simp [he, hi]
    · simp [he]

theorem lookup_getSection {settings : Settings} {name c : String} {own : Yaml}
    {opts : Dict String Yaml} (h : getSection settings name c own = .ok opts) (i : String) :
    opts.lookup i = configured settings c own i := by
  unfold getSection at h
  cases own with
  | dict own =>
    simp only [Yaml.hasKey, Yaml.iteritems, Yaml.getKey, Except.ok_bind] at h
    simp only [configured, inherited]
    cases href : own.lookup "ref" with
    | none =>
      simp only [href, Option.isSome_none, Bool.false_eq_true, if_false] at h
      split_ifs at h
      cases h
      rw [lookup_overloaded, AList.lookup_empty]
    | some n =>
      cases hset : settings.get? c with
      | none =>
        simp only [href, hset, Option.isSome_some, if_true] at h
        cases h
      | some shared =>
        simp only [href, hset, Option.isSome_some, if_true, Except.ok_bind] at h
        obtain ⟨-, -, h⟩ := Except.bind_eq_ok.mp h
        split_ifs at h
        cases h
        rw [lookup_overloaded]
  | null => cases h
  | bool b => cases h
  | int n => cases h
  | float text => cases h
  | str s =>
    simp only [Yaml.hasKey, Yaml.iteritems, Yaml.getKey, Except.ok_bind] at h
    split_ifs at h
    · split at h <;> cases h
    · cases h
  | list items =>
    simp only [Yaml.hasKey, Yaml.iteritems, Yaml.getKey, Except.ok_bind] at h
    split_ifs at h
    · split at h <;> cases h
    · cases h

theorem map_fst_of_forall₂ {α β γ : Type} {l : List (α × β)} {r : List (α × γ)}
    (h : List.Forall₂ (fun p q => p.1 = q.1) l r) : l.map Prod.fst = r.map Prod.fst := by
  induction h with
  | nil => rfl
  | cons hpq _ ih => rw [List.map_cons, List.map_cons, hpq, ih]

/-- The sections of a node are the parts of the device. -/
theorem sections_of_getNode {settings : Settings} {nodes : Dict String Yaml} {name : String}
    {parts : List (String × Yaml)} (hparts : nodes.lookup name = some (.dict parts))
    (hkeys : (parts.map Prod.fst).Nodup) {node : Node}
    (hnode : getNode settings nodes name = .ok (some node)) :
    (∀ c opts, node.sections.lookup c = some opts →
        ∃ own, (c, own) ∈ parts ∧ getSection settings name c own = .ok opts)
      ∧ ∀ c own, (c, own) ∈ parts →
        ∃ opts, node.sections.lookup c = some opts ∧ getSection settings name c own = .ok opts := by
  unfold getNode at hnode
  simp only [hparts, Yaml.iteritems, Except.ok_bind] at hnode
  obtain ⟨sections, hsections, hnode⟩ := Except.bind_eq_ok.mp hnode
  cases hnode
  have hall : List.Forall₂ (fun (p : String × Yaml) (q : String × Dict String Yaml) =>
      p.1 = q.1 ∧ getSection settings name p.1 p.2 = .ok q.2) parts sections := by
    refine (AlertWorkerManager.forall₂_of_mapM hsections).imp (fun p q hpq => ?_)
    obtain ⟨section', hsection, hpq⟩ := Except.bind_eq_ok.mp hpq
    cases hpq
    exact ⟨rfl, hsection⟩
  have hfst : parts.map Prod.fst = sections.map Prod.fst :=
    map_fst_of_forall₂ (hall.imp (fun _ _ h => h.1))
  rw [hfst] at hkeys
  constructor
  · intro c opts hlook
    obtain ⟨⟨c', own⟩, hp, rfl, hsection⟩ :=
      exists_of_forall₂ hall ((Dict.lookup_ofList hkeys).mp hlook)
    exact ⟨own, hp, hsection⟩
  · intro c own hmem
    obtain ⟨⟨c', opts⟩, hq, rfl, hsection⟩ := exists_of_forall₂ hall.flip hmem
    exact ⟨opts, (Dict.lookup_ofList hkeys).mpr hq, hsection⟩

/-! ## Into the data and out of it -/

theorem partition_optionName {c : String} (hc : '_' ∉ c.toList) (i : String) :
    Text.partition '_' (optionName c i) = (c, true, i) :=
  Text.partition_of_toList (by simp [optionName]) hc

/-- The options of a node under their names. -/
def named (o : IterOrder) (node : Option Node) : List (String × Yaml) :=
  (getOptions o node).flatMap (fun p =>
    (o.order p.2.items).map (fun q => (optionName p.1 q.1, q.2)))

theorem dataOf_eq_ofList (o : IterOrder) (node : Option Node) :
    dataOf o node = Dict.ofList (named o node) := by
  unfold dataOf Dict.ofList named
  rw [List.foldl_flatMap]
  simp only [List.foldl_map]

theorem mem_named {o : IterOrder} {node : Node} {k : String} {v : Yaml} :
    (k, v) ∈ named o (some node) ↔ ∃ c opts i, node.sections.lookup c = some opts
      ∧ isOptions c = true ∧ opts.lookup i = some v ∧ k = optionName c i := by
  simp only [named, getOptions, List.mem_flatMap, List.mem_filter, o.mem_order, List.mem_map,
    Prod.exists, Dict.mem_items, Prod.mk.injEq]
  constructor
  · rintro ⟨c, opts, ⟨hc, hopt⟩, i, v', hi, rfl, rfl⟩
    exact ⟨c, opts, i, hc, hopt, hi, rfl⟩
  · rintro ⟨c, opts, i, hc, hopt, hi, rfl⟩
    exact ⟨c, opts, ⟨hc, hopt⟩, i, v, hi, rfl, rfl⟩

/-- The options that `merge_options` picks for an agent. -/
def picked (o : IterOrder) (agentName : String) (options : Dict String Value) :
    List (String × Value) :=
  ((o.order options.items).filter
    (fun p => decide (lower (Text.partition '_' p.1).1 = lower agentName))).map
    (fun p => (lower (Text.partition '_' p.1).2.2, p.2))

theorem mergeOptions_eq (o : IterOrder) (agentName : String)
    (options agentOptions : Dict String Value) :
    mergeOptions o agentName options agentOptions
      = Dict.overlay agentOptions (Dict.ofList (picked o agentName options)) := by
  simp only [mergeOptions, Dict.ofList, picked, List.foldl_map, List.foldl_filter,
    decide_eq_true_eq]

theorem mem_picked {o : IterOrder} {agentName : String} {options : Dict String Value} {x : String}
    {v : Value} : (x, v) ∈ picked o agentName options ↔ ∃ k, options.lookup k = some v
      ∧ lower (Text.partition '_' k).1 = lower agentName
      ∧ lower (Text.partition '_' k).2.2 = x := by
  simp only [picked, List.mem_map, List.mem_filter, o.mem_order, Prod.exists, Dict.mem_items,
    decide_eq_true_eq, Prod.mk.injEq]
  constructor
  · rintro ⟨k, v', ⟨hk, hagent⟩, hx, rfl⟩
    exact ⟨k, hk, hagent, hx⟩
  · rintro ⟨k, hk, hagent, hx⟩
    exact ⟨k, v, ⟨hk, hagent⟩, hx, rfl⟩

/-! ## Through the supervisor -/

section supervisor

variable {readFile : String → Option String}

/-- No file holds a text that would be taken for the name of a file. -/
def NoFiles (cache : List String) : Prop := ∀ c ∈ cache, ¬ "file".toList.isPrefixOf c.toList

/-- One option: it becomes the contents of the file that it names, if it names one. -/
theorem readOptions_cons (hfiles : ∀ f c, readFile f = some c → ¬ "file".toList.isPrefixOf c.toList)
    {i : String} {v : Value} {l : List (String × Value)} {cache cache' : List String}
    (hcache : NoFiles cache) {data data' : Dict String Value} (hown : data.lookup i = some v)
    (h : readOptions readFile ((i, v) :: l) cache data = (cache', some data')) :
    ∃ cache₁ data₁, NoFiles cache₁ ∧ readOptions readFile l cache₁ data₁ = (cache', some data')
      ∧ ∀ k, data₁.lookup k = if k = i then opened readFile v else data.lookup k := by
  -- where the option is left as it is
  have hkeep : opened readFile v = some v → readOptions readFile l cache data
      = (cache', some data') → ∃ cache₁ data₁, NoFiles cache₁
        ∧ readOptions readFile l cache₁ data₁ = (cache', some data')
        ∧ ∀ k, data₁.lookup k = if k = i then opened readFile v else data.lookup k := by
    refine fun hopened h => ⟨cache, data, hcache, h, fun k => ?_⟩
    split_ifs with hk
    · rw [hk, hown, hopened]
    · rfl
  cases v with
  | str s =>
    unfold readOptions at h
    split_ifs at h with hfile
    · cases hpath : filePath s with
      | none =>
        rw [hpath] at h
        exact hkeep (by rw [opened, if_pos hfile.1, hpath]) h
      | some f =>
        cases hread : readFile f with
        | none =>
          rw [hpath] at h
          simp only [hread] at h
          cases h
        | some c =>
          rw [hpath] at h
          simp only [hread] at h
          refine ⟨c :: cache, AList.insert i (.str c) data, fun c' hc' => ?_, h, fun k => ?_⟩
          · exact (List.mem_cons.mp hc').elim (fun heq => heq ▸ hfiles f c hread) (hcache c')
          · rw [Dict.lookup_insert_eq, opened, if_pos hfile.1, hpath]
            simp only [hread, Option.map_some]
    · refine hkeep ?_ h
      rw [opened, if_neg (fun hstart => hfile ⟨hstart, fun hmem => hcache s hmem hstart⟩)]
  | none => exact hkeep rfl h
  | bool b => exact hkeep rfl h
  | int n => exact hkeep rfl h
  | float text => exact hkeep rfl h
  | list items => exact hkeep rfl h

/-- The supervisor reads the files that the options name. -/
theorem readOptions_spec (hfiles : ∀ f c, readFile f = some c → ¬ "file".toList.isPrefixOf c.toList)
    {l : List (String × Value)} (hl : (l.map Prod.fst).Nodup) {cache cache' : List String}
    (hcache : NoFiles cache) {data data' : Dict String Value}
    (hdata : ∀ q ∈ l, data.lookup q.1 = some q.2)
    (h : readOptions readFile l cache data = (cache', some data')) (k : String) :
    data'.lookup k = if k ∈ l.map Prod.fst then (data.lookup k).bind (opened readFile)
      else data.lookup k := by
  induction l generalizing cache data with
  | nil =>
    obtain ⟨-, rfl⟩ : cache = cache' ∧ data = data' := by simpa [readOptions] using h
    rw [List.map_nil, if_neg List.not_mem_nil]
  | cons q l ih =>
    obtain ⟨i, v⟩ := q
    obtain ⟨hi, hl'⟩ := List.nodup_cons.mp hl
    have hown : data.lookup i = some v := hdata (i, v) List.mem_cons_self
    obtain ⟨cache₁, data₁, hcache₁, h₁, hdata₁⟩ := readOptions_cons hfiles hcache hown h
    have hrest : ∀ q ∈ l, data₁.lookup q.1 = some q.2 := by
      intro q hq
      have hne : q.1 ≠ i := fun heq => hi (List.mem_map.mpr ⟨q, hq, heq⟩)
      rw [hdata₁, if_neg hne]
      exact hdata q (List.mem_cons_of_mem _ hq)
    rw [ih hl' hcache₁ hrest h₁, hdata₁, List.map_cons]
    by_cases hk : k = i
    · subst hk
      rw [if_neg hi, if_pos rfl, if_pos List.mem_cons_self, hown, Option.bind_some]
    · simp only [hk, if_false, List.mem_cons, false_or]

/-- The data of a request that is accepted: what it had, its files read, and the drivers. -/
theorem lookup_validateTask {cfg : Config} {now : ℚ} {draw : Draw} {job : Request}
    {s s' : PollerSupervisor.Supervisor} {data : Dict String Value} {a : Assignment}
    (hfiles : ∀ f c, readFile f = some c → ¬ "file".toList.isPrefixOf c.toList)
    (hcache : NoFiles s.optionsCache)
    (h : validateTask cfg readFile now draw job s = (s', .ok (data, a))) {k : String}
    (hdriver : k ≠ "driver") (hprobe : k ≠ "probe_with_drivers") :
    data.lookup k = (job.data.lookup k).bind (opened readFile) := by
  obtain ⟨cache, read, hread, rfl⟩ : ∃ cache read,
      readOptions readFile job.data.items s.optionsCache job.data = (cache, some read)
        ∧ a.store read = data := by
    unfold validateTask at h
    split at h
    · split at h
      · cases h
      · rename_i cache read hread
        refine ⟨cache, read, hread, ?_⟩
        simp only at h
        split at h
        · cases h
        · split at h
          · cases h
          · cases h
            rfl
    · cases h
  have hstore : (a.store read).lookup k = read.lookup k := by
    cases a with
    | probe drivers => exact AList.lookup_insert_ne hprobe
    | poll driver => exact AList.lookup_insert_ne hdriver
  have hkeys : (job.data.items.map Prod.fst).Nodup := by
    rw [Dict.items_map_fst]
    exact job.data.nodupKeys
  rw [hstore, readOptions_spec hfiles hkeys hcache (fun q hq => Dict.mem_items.mp hq) hread]
  split_ifs with hmem
  · rfl
  · have hnone : job.data.lookup k = none := by
      cases hk : job.data.lookup k with
      | none => rfl
      | some v => exact absurd (List.mem_map_of_mem (f := Prod.fst) (Dict.mem_items.mpr hk)) hmem
    rw [hnone, Option.bind_none]

end supervisor

/-! ## The options of a device -/

section device

variable {p : Parser} {name : String} {parts : List (String × Yaml)} {node : Node}
  (hparts : p.nodes.lookup name = some (.dict parts)) (hkeys : (parts.map Prod.fst).Nodup)
  (hplain : Plain p.settings parts) (hnode : getNode p.settings p.nodes name = .ok (some node))

include hparts hkeys hnode in
/-- The options of the node, in terms of the files. -/
theorem mem_named_iff {o : IterOrder} {k : String} {v : Yaml} :
    (k, v) ∈ named o (some node) ↔ ∃ c own i, (c, own) ∈ parts ∧ isOptions c = true
      ∧ configured p.settings c own i = some v ∧ k = optionName c i := by
  obtain ⟨hback, hforth⟩ := sections_of_getNode hparts hkeys hnode
  rw [mem_named]
  constructor
  · rintro ⟨c, opts, i, hc, hopt, hi, hk⟩
    obtain ⟨own, hmem, hsection⟩ := hback c opts hc
    exact ⟨c, own, i, hmem, hopt, by rw [← lookup_getSection hsection, hi], hk⟩
  · rintro ⟨c, own, i, hmem, hopt, hi, hk⟩
    obtain ⟨opts, hc, hsection⟩ := hforth c own hmem
    exact ⟨c, opts, i, hc, hopt, by rw [lookup_getSection hsection, hi], hk⟩

include hparts hkeys hplain hnode in
/-- What stands in the data of the task. -/
theorem lookup_dataOf {o : IterOrder} {k : String} {v : Yaml} :
    (dataOf o (some node)).lookup k = some v ↔ ∃ c own i, (c, own) ∈ parts ∧ isOptions c = true
      ∧ configured p.settings c own i = some v ∧ k = optionName c i := by
  rw [dataOf_eq_ofList, Dict.lookup_ofList_of_unique, mem_named_iff hparts hkeys hnode]
  intro k v v' hv hv'
  obtain ⟨c, own, i, hmem, hopt, hi, rfl⟩ := (mem_named_iff hparts hkeys hnode).mp hv
  obtain ⟨c', own', i', hmem', hopt', hi', heq⟩ := (mem_named_iff hparts hkeys hnode).mp hv'
  -- the name splits at the bar behind the section
  have hsplit := partition_optionName (hplain.bar c own hmem hopt) i
  rw [heq, partition_optionName (hplain.bar c' own' hmem' hopt') i'] at hsplit
  obtain ⟨rfl, -, rfl⟩ : c' = c ∧ true = true ∧ i' = i := by simpa using hsplit
  obtain rfl := (Prod.mk.inj (List.inj_on_of_nodup_map hkeys hmem hmem' rfl)).2
  rw [hi] at hi'
  exact Option.some.inj hi'

include hkeys hplain in
/-- A device has one option for an agent under one name. -/
theorem hasOption_unique {readFile : String → Option String} {agent x : String} {v v' : Value}
    (h : HasOption readFile p.settings parts agent x v)
    (h' : HasOption readFile p.settings parts agent x v') : v = v' := by
  obtain ⟨c, own, i, y, hmem, hopt, hc, hx, hi, hv⟩ := h
  obtain ⟨c', own', i', y', hmem', hopt', hc', hx', hi', hv'⟩ := h'
  obtain rfl := hplain.sections c own c' own' hmem hmem' hopt hopt' (hc.trans hc'.symm)
  obtain rfl := (Prod.mk.inj (List.inj_on_of_nodup_map hkeys hmem hmem' rfl)).2
  obtain rfl := hplain.options c own hmem hopt i i' y y' hi hi' (hx.trans hx'.symm)
  obtain rfl := Option.some.inj (hi.symm.trans hi')
  exact Option.some.inj (hv.symm.trans hv')

end device

section agent

variable {p : Parser} {name : String} {parts : List (String × Yaml)}
  (hparts : p.nodes.lookup name = some (.dict parts)) (hkeys : (parts.map Prod.fst).Nodup)
  (hplain : Plain p.settings parts) {o o' : IterOrder} {spec taskId : String} {task : Task}
  (htask : createTask o p name spec taskId = .ok task) {job : Request} (hjob : Carries job task)
  {cfg : Config} {readFile : String → Option String} {now : ℚ} {draw : Draw}
  {s s' : PollerSupervisor.Supervisor} {data : Dict String Value} {a : Assignment}
  (hfiles : ∀ f c, readFile f = some c → ¬ "file".toList.isPrefixOf c.toList)
  (hcache : NoFiles s.optionsCache)
  (hvalid : validateTask cfg readFile now draw job s = (s', .ok (data, a)))
include hparts hkeys hplain htask hjob hfiles hcache hvalid

/-- What `poll` hands on of the options of the device. -/
theorem lookup_jobOptions {k : String} (hprobe : k ≠ "probe_with_drivers") {v : Value} :
    (jobOptions data).lookup k = some v ↔ ∃ c own i y, (c, own) ∈ parts ∧ isOptions c = true
      ∧ configured p.settings c own i = some y ∧ (asValue y).bind (opened readFile) = some v
      ∧ k = optionName c i := by
  obtain ⟨node, hnode, hdata⟩ : ∃ node, getNode p.settings p.nodes name = .ok (some node)
      ∧ task.data = dataOf o (some node) := by
    unfold createTask at htask
    split at htask
    · cases htask
    · rename_i n hn
      cases htask
      cases n with
      | none =>
        unfold getNode at hn
        simp only [hparts, Yaml.iteritems, Except.ok_bind] at hn
        obtain ⟨sections, -, hn⟩ := Except.bind_eq_ok.mp hn
        cases hn
      | some node => exact ⟨node, hn, rfl⟩
  by_cases hdriver : k = "driver"
  · -- the name of an option has a bar
    subst hdriver
    rw [jobOptions, AList.lookup_erase]
    refine ⟨fun h => (by cases h), ?_⟩
    rintro ⟨c, own, i, y, -, -, -, -, hk⟩
    have hbar : '_' ∈ ("driver" : String).toList := by
      rw [hk, optionName]
      simp
    exact absurd hbar (by decide)
  · rw [jobOptions, AList.lookup_erase_ne hdriver,
      lookup_validateTask hfiles hcache hvalid hdriver hprobe, Option.bind_eq_some_iff]
    simp only [hjob.data, hdata, lookup_dataOf hparts hkeys hplain hnode]
    constructor
    · rintro ⟨w, ⟨y, ⟨c, own, i, hmem, hopt, hi, hk⟩, hw⟩, hv⟩
      exact ⟨c, own, i, y, hmem, hopt, hi, by rw [hw, Option.bind_some, hv], hk⟩
    · rintro ⟨c, own, i, y, hmem, hopt, hi, hv, hk⟩
      obtain ⟨w, hw, hv⟩ := Option.bind_eq_some_iff.mp hv
      exact ⟨w, ⟨y, ⟨c, own, i, hmem, hopt, hi, hk⟩, hw⟩, hv⟩

/-- What `merge_options` picks for an agent are the options of the device. -/
theorem mem_picked_iff {agent x : String} {v : Value} (hagent : lower agent ≠ "probe") :
    (x, v) ∈ picked o' agent (jobOptions data) ↔
      HasOption readFile p.settings parts agent x v := by
  have hprobe : ∀ k, lower (Text.partition '_' k).1 = lower agent → k ≠ "probe_with_drivers" := by
    rintro k hk rfl
    refine hagent (hk.symm.trans ?_)
    decide +kernel
  rw [mem_picked]
  constructor
  · rintro ⟨k, hk, hc, hx⟩
    rw [lookup_jobOptions hparts hkeys hplain htask hjob hfiles hcache hvalid (hprobe k hc)] at hk
    obtain ⟨c, own, i, y, hmem, hopt, hi, hv, rfl⟩ := hk
    rw [partition_optionName (hplain.bar c own hmem hopt)] at hc hx
    exact ⟨c, own, i, y, hmem, hopt, hc, hx, hi, hv⟩
  · rintro ⟨c, own, i, y, hmem, hopt, hc, hx, hi, hv⟩
    have hsplit := partition_optionName (hplain.bar c own hmem hopt) i
    have hc' : lower (Text.partition '_' (optionName c i)).1 = lower agent := by
      rw [hsplit]
      exact hc
    refine ⟨optionName c i, ?_, hc', by rw [hsplit]; exact hx⟩
    rw [lookup_jobOptions hparts hkeys hplain htask hjob hfiles hcache hvalid (hprobe _ hc')]
    exact ⟨c, own, i, y, hmem, hopt, hi, hv, rfl⟩

end agent

/-! ## A wireless controller -/

/-- The parts of a controller that answers slowly. -/
def controllerParts : List (String × Yaml) :=
  [("schedule", .dict [("ref", .str "wlc")]),
    ("snmp", .dict [("timeout", .int 60), ("ref", .str "default")])]

/-- The files of the controller. -/
def controllerParser : Parser where
  settings :=
    { schedule := .dict [("wlc", .dict [("user_stats", .str "300 +- 30")])]
      snmp := .dict [("default", .dict [("community", .str "file:///opt/etc/snmp.community.read"),
        ("timeout", .int 20)])] }
  nodes := Dict.ofList [("swh-wlc", .dict controllerParts)]
  heap := []

/-- The options of the controller. -/
theorem configured_controller {c : String} {own : Yaml} (hmem : (c, own) ∈ controllerParts)
    (hopt : isOptions c = true) {i : String} {v : Yaml}
    (h : configured controllerParser.settings c own i = some v) :
    c = "snmp" ∧ (i = "timeout" ∨ i = "community") := by
  simp only [controllerParts, List.mem_cons, Prod.mk.injEq, List.not_mem_nil, or_false] at hmem
  rcases hmem with ⟨rfl, rfl⟩ | ⟨rfl, rfl⟩
  · exact absurd hopt (by decide)
  · refine ⟨rfl, ?_⟩
    rcases Option.or_eq_some_iff.mp h with hown | ⟨-, hinherited⟩
    · split_ifs at hown with hi
      have hl := (Dict.lookup_ofList (by decide)).mp hown
      simp only [List.mem_cons, Prod.mk.injEq, List.not_mem_nil, or_false] at hl
      exact hl.elim (fun hl => Or.inl hl.1) (fun hl => absurd hl.1 hi)
    · have hset : inherited controllerParser.settings "snmp"
          [("timeout", .int 60), ("ref", .str "default")] i
            = (Dict.ofList [("community", Yaml.str "file:///opt/etc/snmp.community.read"),
              ("timeout", .int 20)]).lookup i := rfl
      rw [hset] at hinherited
      have hl := (Dict.lookup_ofList (by decide)).mp hinherited
      simp only [List.mem_cons, Prod.mk.injEq, List.not_mem_nil, or_false] at hl
      exact hl.elim (fun hl => Or.inr hl.1) (fun hl => Or.inl hl.1)

theorem plain_controller : Plain controllerParser.settings controllerParts where
  bar c own hmem hopt := by
    simp only [controllerParts, List.mem_cons, Prod.mk.injEq, List.not_mem_nil, or_false] at hmem
    rcases hmem with ⟨rfl, -⟩ | ⟨rfl, -⟩ <;> decide
  sections c own c' own' hmem hmem' hopt hopt' _ := by
    simp only [controllerParts, List.mem_cons, Prod.mk.injEq, List.not_mem_nil, or_false]
      at hmem hmem'
    rcases hmem with ⟨rfl, -⟩ | ⟨rfl, -⟩
    · exact absurd hopt (by decide)
    · rcases hmem' with ⟨rfl, -⟩ | ⟨rfl, -⟩
      · exact absurd hopt' (by decide)
      · rfl
  options c own hmem hopt i i' v v' hi hi' hlower := by
    have hne : lower "timeout" ≠ lower "community" := by decide +kernel
    obtain ⟨-, hi⟩ := configured_controller hmem hopt hi
    obtain ⟨-, hi'⟩ := configured_controller hmem hopt hi'
    rcases hi with rfl | rfl <;> rcases hi' with rfl | rfl
    · rfl
    · exact absurd hlower hne
    · exact absurd hlower.symm hne
    · rfl

/-- A supervisor with one driver for the stations. -/
def controllerConfig : Config :=
  ⟨"/drivers/", Dict.ofList [("user_stats", ["cisco_wlc.yaml"])], ∅, 30, 15, some 1, 7200, 3 / 10⟩

/-- The file of the community. -/
def communityFile (f : String) : Option String :=
  if f = "/opt/etc/snmp.community.read" then some "public" else none

end Scheduler
