/-
# The messages of a poll

`Gatherer.fetch` hands `poll` the records of each group, and the names of the keys of
the groups.  A group comes from the driver's groups, from its iterative groups, where
it is named `group@var=value`, or from a post map, which may name it anything:
`post_new_group_from_field` names it `group@field=value`.  The names of the keys are set
up before the post maps run; `poll` goes back to them from the name of the group.
-/
import Ptolemy.PostRemap

namespace Poll

open Driver (Record Ref World Posts GroupPost removeKeyOf)

/-! ## The keys of the groups -/

/-- What `poll` uses of the definition of a group, besides its key and its post maps. -/
structure GroupKeys : Type where
  additionalKeyNames : Option (List String) := none
  forcedKeyNames : Option (List String) := none
  clean : Bool := false

/-- The groups of a driver, and those that it polls by iteration. -/
structure PollDriver : Type where
  posts : Posts
  groups : Dict String GroupKeys := ∅
  iterativeGroups : Dict String GroupKeys := ∅

/-- The records of a group by index. -/
abbrev Items : Type := Dict String Ref

/-- What has been collected and processed: the groups, and for each value of the variable that
is iterated over the iterative groups. -/
structure Collected : Type where
  res : Dict String Items
  var : String := ""
  iterRes : Dict Value (Dict String Items) := ∅

/-- The names of the keys by group, and the groups with what was collected by iteration. -/
structure Named : Type where
  keys : Dict String String := ∅
  additionalKeys : Dict String (Option (List String)) := ∅
  forcedKeys : Dict String (Option (List String)) := ∅
  res : Dict String Items

variable (env : Driver.Env) (drv : PollDriver)

/-- One group. -/
def nameGroup (n : Named) (g : String) : Named :=
  let defn := (drv.groups.lookup g).getD {}
  { n with
    keys := AList.insert g ((drv.posts.groups.lookup g).getD {}).keyName n.keys
    additionalKeys := AList.insert g defn.additionalKeyNames n.additionalKeys
    forcedKeys := AList.insert g defn.forcedKeyNames n.forcedKeys }

/-- The name of an iterative group for one value. -/
def iterName (g var : String) (val : Value) : String := g ++ "@" ++ var ++ "=" ++ val.toText

/-- One iterative group for one value. -/
def nameIterGroup (var : String) (val : Value) (n : Named) (p : String × Items) : Named :=
  if p.1 = "__with__" then n
  else { n with
    keys := AList.insert (iterName p.1 var val)
      ((drv.posts.iterativeGroups.lookup p.1).getD {}).keyName n.keys
    additionalKeys := AList.insert (iterName p.1 var val)
      ((drv.iterativeGroups.lookup p.1).getD {}).additionalKeyNames n.additionalKeys
    res := AList.insert (iterName p.1 var val) p.2 n.res }

/-- `_fetch`, after the collecting. -/
def _fetch (c : Collected) : Named :=
  (env.order.order c.iterRes.items).foldl
    (fun n q => (env.order.order q.2.items).foldl (nameIterGroup drv c.var q.1) n)
    ((env.order.order (c.res.items.map Prod.fst)).foldl (nameGroup drv) { res := c.res })

/-! ## `fetch` -/

/-- What `fetch` returns; the key of a group that removes it is `None`. -/
structure Fetched : Type where
  keys : Dict String (Option String)
  additionalKeys : Dict String (Option (List String))
  forcedKeys : Dict String (Option (List String))
  res : Dict String (List Record)

/-- The groups that `post_remap` returns, with their records. -/
def resultOf (s : Driver.State) : Dict String (List Record) :=
  Dict.ofList ((s.results.filterMap (fun y => y.map Prod.fst)).map (fun g => (g, s.recordsOf g)))

/-- The keys that are removed. -/
def removeKeys (gs : List String) (keys : Dict String String) : Dict String (Option String) :=
  gs.foldl (fun ks g => if (removeKeyOf drv.posts g).1 then AList.insert g none ks else ks)
    (keys.mapVals some)

/-- `Gatherer.fetch`. -/
def fetch (visit : IterOrder) (w : World) (c : Collected) : Except Exn Fetched := do
  let n := _fetch env drv c
  let s ← Driver.postRemap env drv.posts visit n.keys { w with data := n.res }
  if none ∈ s.results then
    throw (.attributeError "'NoneType' object has no attribute 'partition'")
  else pure {
    keys := removeKeys drv (resultOf s).keys n.keys
    additionalKeys := n.additionalKeys
    forcedKeys := n.forcedKeys
    res := (resultOf s).restrict (fun g => !((drv.groups.lookup g).getD {}).clean) }

/-! ## `poll` -/

/-- A job: what is asked for, and of which device. -/
structure Job : Type where
  taskId : Option Value := none
  spec : String
  device : String

/-- A message with the records of one group. -/
structure Message : Type where
  taskId : Value
  type : String := "task"
  spec : String
  group : String
  keyName : List String
  key : String
  context : Dict String Value
  data : List Record
  timestamp : Int

def routingKey (taskId : Value) (spec group device : String) : String :=
  "." ++ Text.join "." ["spec." ++ spec, "group." ++ group,
    "device." ++ Text.join "." (Text.split '.' device).reverse, "task_id." ++ taskId.toText] ++ "."

def format_msg (taskId : Value) (time : Int) (spec group device : String) (data : List Record)
    (keys : List String) (forcedKeys : Dict String (Option (List String))) : Message where
  taskId := taskId
  spec := spec
  group := group
  keyName := keys
  key := routingKey taskId spec group device
  context := (((forcedKeys.lookup group).getD none).getD []).foldl
    (fun c k => AList.insert k .none c) (AList.insert "device" (.str device) ∅)
  data := data
  timestamp := time

/-- The names of the keys of a message. -/
def theseKeys (key : Option String) (additional : Option (List String)) : List String :=
  let add := (key.filter (fun k => k ≠ "")).toList
  match additional with
  | none => add
  | some ks => if (key.elim false (fun k => decide (k ∈ ks))) then ks else add ++ ks

/-- The message of one group, with the keys of `thisG` and the identifier `i` of the task. -/
def messageAs (job : Job) (t : Int) (f : Fetched) (g : String) (data : List Record)
    (thisG : String) (i : Value) : Except Exn Message := do
  let additional ← (f.additionalKeys.lookup thisG).elim (throw (.keyError thisG)) pure
  let key ← (f.keys.lookup thisG).elim (throw (.keyError thisG)) pure
  pure (format_msg i t job.spec g job.device data (theseKeys key additional) f.forcedKeys)

/-- The message of one group.  Where the group has no key of its own, what stands behind the
`@` in its name ends up in place of the identifier of the task. -/
def messageOf (job : Job) (t : Int) (f : Fetched) (g : String) (data : List Record) :
    Except Exn Message :=
  if g ∈ f.keys then messageAs job t f g data g (job.taskId.getD .none)
  else messageAs job t f g data (Text.partition '@' g).1 (.str (Text.partition '@' g).2.2)

/-- The messages of the groups, up to one that raises. -/
def messages (job : Job) (t : Int) (f : Fetched) :
    List (String × List Record) → List Message × Option Exn
  | [] => ([], none)
  | p :: ps => match messageOf job t f p.1 p.2 with
    | .error e => ([], some e)
    | .ok m => (m :: (messages job t f ps).1, (messages job t f ps).2)

/-! ## The names that `fetch` sets up -/

variable {env : Driver.Env} {drv : PollDriver}

variable (drv) in
theorem mem_foldl_nameGroup (gs : List String) (n : Named) (g : String) :
    (g ∈ (gs.foldl (nameGroup drv) n).keys ↔ g ∈ gs ∨ g ∈ n.keys)
      ∧ (g ∈ (gs.foldl (nameGroup drv) n).additionalKeys ↔ g ∈ gs ∨ g ∈ n.additionalKeys)
      ∧ (gs.foldl (nameGroup drv) n).res = n.res := by
  induction gs generalizing n with
  | nil => exact ⟨by simp, by simp, rfl⟩
  | cons g' gs ih =>
    rw [List.foldl_cons]
    obtain ⟨hkeys, hadditional, hres⟩ := ih (nameGroup drv n g')
    refine ⟨hkeys.trans ?_, hadditional.trans ?_, hres⟩
    · rw [nameGroup, AList.mem_insert, List.mem_cons]
      tauto
    · rw [nameGroup, AList.mem_insert, List.mem_cons]
      tauto

/-- The groups with keys are the groups that there are. -/
structure AllNamed (n : Named) : Prop where
  keys : ∀ g, g ∈ n.keys ↔ g ∈ n.res
  additionalKeys : ∀ g, g ∈ n.additionalKeys ↔ g ∈ n.res

theorem AllNamed.nameIterGroup {n : Named} (h : AllNamed n) (var : String) (val : Value)
    (p : String × Items) : AllNamed (nameIterGroup drv var val n p) := by
  unfold Poll.nameIterGroup
  split_ifs
  · exact h
  · constructor
    · intro g
      rw [AList.mem_insert, AList.mem_insert, h.keys g]
    · intro g
      rw [AList.mem_insert, AList.mem_insert, h.additionalKeys g]

/-- **The groups that `post_remap` is given** are those with keys. -/
theorem allNamed_fetch (c : Collected) : AllNamed (_fetch env drv c) := by
  have hplain : AllNamed ((env.order.order (c.res.items.map Prod.fst)).foldl (nameGroup drv)
      { res := c.res }) := by
    have hmem : ∀ g, g ∈ env.order.order (c.res.items.map Prod.fst) ↔ g ∈ c.res := by
      intro g
      rw [env.order.mem_order, Dict.items_map_fst, AList.mem_keys]
    constructor
    · intro g
      obtain ⟨hkeys, -, hres⟩ := mem_foldl_nameGroup drv
        (env.order.order (c.res.items.map Prod.fst)) { res := c.res } g
      rw [hkeys, hres, hmem]
      exact or_iff_left (AList.notMem_empty g)
    · intro g
      obtain ⟨-, hadditional, hres⟩ := mem_foldl_nameGroup drv
        (env.order.order (c.res.items.map Prod.fst)) { res := c.res } g
      rw [hadditional, hres, hmem]
      exact or_iff_left (AList.notMem_empty g)
  have hgroups : ∀ (val : Value) (ps : List (String × Items)) (n : Named), AllNamed n →
      AllNamed (ps.foldl (nameIterGroup drv c.var val) n) := by
    intro val ps
    induction ps with
    | nil => exact fun n h => h
    | cons p ps ih => exact fun n h => ih _ (h.nameIterGroup c.var val p)
  unfold _fetch
  generalize (env.order.order (c.res.items.map Prod.fst)).foldl (nameGroup drv)
    { res := c.res } = n at hplain ⊢
  generalize env.order.order c.iterRes.items = l
  induction l generalizing n with
  | nil => exact hplain
  | cons q l ih => exact ih _ (hgroups q.1 _ _ hplain)

theorem lookup_removeKeys (gs : List String) (keys : Dict String String) (g : String) :
    (removeKeys drv gs keys).lookup g
      = if g ∈ gs ∧ (removeKeyOf drv.posts g).1 = true then some none
        else (keys.lookup g).map some := by
  unfold removeKeys
  rw [← Dict.lookup_mapVals some keys g]
  generalize keys.mapVals some = ks
  induction gs generalizing ks with
  | nil => simp
  | cons g' gs ih =>
    rw [List.foldl_cons, ih]
    by_cases hmem : g ∈ gs ∧ (removeKeyOf drv.posts g).1 = true
    · rw [if_pos hmem, if_pos ⟨List.mem_cons_of_mem g' hmem.1, hmem.2⟩]
    · rw [if_neg hmem]
      split_ifs with hremove hin hin
      · rw [Dict.lookup_insert_eq, if_pos]
        exact (List.mem_cons.mp hin.1).resolve_right (fun h => hmem ⟨h, hin.2⟩)
      · rw [AList.lookup_insert_ne]
        rintro rfl
        exact hin ⟨List.mem_cons_self, hremove⟩
      · obtain rfl := (List.mem_cons.mp hin.1).resolve_right (fun h => hmem ⟨h, hin.2⟩)
        exact absurd hin.2 hremove
      · rfl

/-- What `fetch` returns where it returns. -/
theorem fetch_eq_ok {visit : IterOrder} {w : World} {c : Collected} {f : Fetched}
    (h : fetch env drv visit w c = .ok f) :
    ∃ gs, (∀ g, g ∈ f.res → g ∈ gs) ∧ f.keys = removeKeys drv gs (_fetch env drv c).keys
      ∧ f.additionalKeys = (_fetch env drv c).additionalKeys := by
  unfold fetch at h
  obtain ⟨s, -, h⟩ := Except.bind_eq_ok.mp h
  split_ifs at h
  cases h
  exact ⟨(resultOf s).keys, fun g hg => AList.mem_keys.mp (Dict.mem_restrict.mp hg).2, rfl, rfl⟩

/-! ## The identity of the messages -/

/-- The group that a group was made from. -/
def baseGroup (keys : Dict String String) (g : String) : String :=
  if g ∈ keys then g else (Text.partition '@' g).1

/-- The key of a group, where it is not removed from its records, followed by the additional keys;
the additional keys may have the key among them. -/
def keyNamesOf (drv : PollDriver) (n : Named) (g : String) : List String :=
  let key := if (removeKeyOf drv.posts (baseGroup n.keys g)).1 then none
    else (n.keys.lookup (baseGroup n.keys g)).filter (fun k => k ≠ "")
  let additional := ((n.additionalKeys.lookup (baseGroup n.keys g)).getD none).getD []
  key.elim additional (fun k => additional.insert k)

/-- A message has the identifier of the task, also in its routing key, and the keys of its
group. -/
structure HasIdentity (drv : PollDriver) (n : Named) (job : Job) (m : Message) : Prop where
  taskId : some m.taskId = job.taskId
  key : ∀ i, job.taskId = some i → m.key = routingKey i m.spec m.group job.device
  keyName : m.keyName = keyNamesOf drv n m.group

/-- There is one message for each group of the result, and each has its identity. -/
structure Identified (drv : PollDriver) (n : Named) (job : Job) (f : Fetched)
    (out : List Message × Option Exn) : Prop where
  ended : out.2 = none
  groups : (out.1.map Message.group).Perm f.res.keys
  identity : ∀ m ∈ out.1, HasIdentity drv n job m

/-- A group that `poll` gets right: one that the post maps were given, or one whose name happens
to have the identifier of the task behind its `@` and whose keys come out right. -/
def Kept (drv : PollDriver) (n : Named) (job : Job) (f : Fetched) (g : String) : Prop :=
  g ∈ n.keys ∨ g ∉ f.keys ∧ job.taskId = some (.str (Text.partition '@' g).2.2)
    ∧ ∃ key additional, f.keys.lookup (Text.partition '@' g).1 = some key
      ∧ n.additionalKeys.lookup (Text.partition '@' g).1 = some additional
      ∧ theseKeys key additional = keyNamesOf drv n g

theorem theseKeys_eq (key : Option String) (additional : Option (List String)) :
    theseKeys key additional = (key.filter (fun k => k ≠ "")).elim (additional.getD [])
      (fun k => (additional.getD []).insert k) := by
  unfold theseKeys
  cases key with
  | none => cases additional <;> rfl
  | some k =>
    rw [Option.filter_some]
    by_cases hk : k = ""
    · subst hk
      cases additional with
      | none => rfl
      | some ks => exact ite_self ks
    · rw [if_pos (by simpa using hk)]
      cases additional with
      | none => rfl
      | some ks => simp [List.insert]

section identity

variable {n : Named} {job : Job} {t : Int} {f : Fetched} {g : String} {data : List Record}
  {gs : List String}

theorem elim_eq_ok {α : Type} {o : Option α} {e : Exn} {a : α} :
    o.elim (throw e : Except Exn α) pure = .ok a ↔ o = some a := by
  cases o with
  | none => exact ⟨fun h => (by cases h), fun h => (by cases h)⟩
  | some b =>
    constructor
    · intro h
      cases h
      rfl
    · intro h
      cases h
      rfl

theorem messageAs_eq_ok {thisG : String} {i : Value} {m : Message} :
    messageAs job t f g data thisG i = .ok m ↔
      ∃ key additional, f.keys.lookup thisG = some key ∧ f.additionalKeys.lookup thisG = some additional
        ∧ m = format_msg i t job.spec g job.device data (theseKeys key additional) f.forcedKeys := by
  unfold messageAs
  constructor
  · intro h
    obtain ⟨additional, hadd, h⟩ := Except.bind_eq_ok.mp h
    obtain ⟨key, hkey, h⟩ := Except.bind_eq_ok.mp h
    cases h
    exact ⟨key, additional, elim_eq_ok.mp hkey, elim_eq_ok.mp hadd, rfl⟩
  · rintro ⟨key, additional, hkey, hadd, rfl⟩
    rw [hkey, hadd]
    rfl

theorem group_of_messageOf {m : Message} (h : messageOf job t f g data = .ok m) :
    m.group = g := by
  unfold messageOf at h
  split_ifs at h
  · obtain ⟨_, _, -, -, rfl⟩ := messageAs_eq_ok.mp h
    rfl
  · obtain ⟨_, _, -, -, rfl⟩ := messageAs_eq_ok.mp h
    rfl

/-- A group with keys of its own. -/
theorem messageOf_of_mem {i : Value} (hi : job.taskId = some i) (hn : AllNamed n)
    (hkeys : f.keys = removeKeys drv gs n.keys) (hadditional : f.additionalKeys = n.additionalKeys)
    (hgs : g ∈ gs) (hg : g ∈ n.keys) :
    ∃ m, messageOf job t f g data = .ok m ∧ HasIdentity drv n job m := by
  obtain ⟨k, hk⟩ := Dict.mem_iff_lookup.mp hg
  obtain ⟨additional, hadd⟩ :=
    Dict.mem_iff_lookup.mp ((hn.additionalKeys g).mpr ((hn.keys g).mp hg))
  have hbase : baseGroup n.keys g = g := if_pos hg
  have hlook : f.keys.lookup g
      = some (if (removeKeyOf drv.posts g).1 then none else some k) := by
    rw [hkeys, lookup_removeKeys, hk]
    cases (removeKeyOf drv.posts g).1 with
    | true => rw [if_pos ⟨hgs, rfl⟩, if_pos rfl]
    | false => rw [if_neg (fun h => Bool.false_ne_true h.2), if_neg Bool.false_ne_true]; rfl
  refine ⟨format_msg i t job.spec g job.device data
    (theseKeys (if (removeKeyOf drv.posts g).1 then none else some k) additional) f.forcedKeys,
    ?_, ?_, ?_, ?_⟩
  · unfold messageOf
    rw [if_pos (Dict.mem_iff_lookup.mpr ⟨_, hlook⟩), hi, Option.getD_some]
    exact messageAs_eq_ok.mpr ⟨_, _, hlook, hadditional ▸ hadd, rfl⟩
  · exact hi.symm
  · intro j hj
    rw [Option.some.inj (hj.symm.trans hi)]
    rfl
  · show theseKeys _ _ = keyNamesOf drv n g
    rw [theseKeys_eq]
    unfold keyNamesOf
    rw [hbase, hadd, hk]
    cases (removeKeyOf drv.posts g).1 <;> rfl

/-- **The message of one group** has its identity just when the group is one of those that `poll`
gets right. -/
theorem messageOf_iff {i : Value} (hi : job.taskId = some i) (hn : AllNamed n)
    (hkeys : f.keys = removeKeys drv gs n.keys) (hadditional : f.additionalKeys = n.additionalKeys)
    (hgs : g ∈ gs) :
    (∃ m, messageOf job t f g data = .ok m ∧ HasIdentity drv n job m) ↔ Kept drv n job f g := by
  by_cases hg : g ∈ n.keys
  · exact ⟨fun _ => Or.inl hg,
      fun _ => messageOf_of_mem hi hn hkeys hadditional hgs hg⟩
  have hnone : n.additionalKeys.lookup g = none :=
    AList.lookup_eq_none.mpr (fun h => hg ((hn.keys g).mpr ((hn.additionalKeys g).mp h)))
  unfold messageOf
  constructor
  · rintro ⟨m, hm, hid⟩
    split_ifs at hm with hf
    · -- its key has been removed, but it has no additional keys
      obtain ⟨_, _, -, hadd, -⟩ := messageAs_eq_ok.mp hm
      rw [hadditional, hnone] at hadd
      cases hadd
    · obtain ⟨key, additional, hkey, hadd, rfl⟩ := messageAs_eq_ok.mp hm
      rw [hadditional] at hadd
      exact Or.inr ⟨hf, hid.taskId.symm, key, additional, hkey, hadd, hid.keyName⟩
  · rintro (h | ⟨hf, htask, key, additional, hkey, hadd, hnames⟩)
    · exact absurd h hg
    rw [if_neg hf]
    refine ⟨_, messageAs_eq_ok.mpr ⟨key, additional, hkey, hadditional ▸ hadd, rfl⟩, htask.symm,
      fun j hj => ?_, hnames⟩
    rw [htask] at hj
    cases hj
    rfl

/-- The messages of the groups, where no group raises. -/
theorem messages_ended {ps : List (String × List Record)}
    (h : (messages job t f ps).2 = none) :
    List.Forall₂ (fun p m => messageOf job t f p.1 p.2 = .ok m) ps (messages job t f ps).1 := by
  induction ps with
  | nil => exact .nil
  | cons p ps ih =>
    unfold messages at h ⊢
    cases hm : messageOf job t f p.1 p.2 with
    | error e =>
      rw [hm] at h
      cases h
    | ok m =>
      rw [hm] at h
      exact .cons hm (ih h)

theorem messages_of_ok {ps : List (String × List Record)}
    (h : ∀ p ∈ ps, ∃ m, messageOf job t f p.1 p.2 = .ok m) : (messages job t f ps).2 = none := by
  induction ps with
  | nil => rfl
  | cons p ps ih =>
    obtain ⟨m, hm⟩ := h p List.mem_cons_self
    unfold messages
    rw [hm]
    exact ih (fun q hq => h q (List.mem_cons_of_mem p hq))

theorem groups_of_messages {ps : List (String × List Record)} {ms : List Message}
    (h : List.Forall₂ (fun p m => messageOf job t f p.1 p.2 = .ok m) ps ms) :
    ms.map Message.group = ps.map Prod.fst := by
  induction h with
  | nil => rfl
  | cons hok _ ih => rw [List.map_cons, List.map_cons, ih, group_of_messageOf hok]

/-- **The identity of the messages**: for the result of a `fetch`, `poll` yields one message for
each group, with the identifier of the task and the keys of the group, just when it gets every
group right. -/
theorem identified_iff {visit : IterOrder} {w : World} {c : Collected} {i : Value}
    (hfetch : fetch env drv visit w c = .ok f) (hi : job.taskId = some i) (o : IterOrder) :
    Identified drv (_fetch env drv c) job f (messages job t f (o.order f.res.items))
      ↔ ∀ g ∈ f.res, Kept drv (_fetch env drv c) job f g := by
  obtain ⟨gs, hgs, hkeys, hadditional⟩ := fetch_eq_ok hfetch
  have hone : ∀ (g : String) (data : List Record), g ∈ gs →
      ((∃ m, messageOf job t f g data = .ok m ∧ HasIdentity drv (_fetch env drv c) job m)
        ↔ Kept drv (_fetch env drv c) job f g) :=
    fun g data hg => messageOf_iff hi (allNamed_fetch c) hkeys hadditional hg
  have hitems : ∀ g, g ∈ f.res ↔ ∃ data, (g, data) ∈ o.order f.res.items := by
    intro g
    rw [Dict.mem_iff_lookup]
    simp only [o.mem_order, Dict.mem_items]
  constructor
  · intro h g hg
    obtain ⟨data, hmem⟩ := (hitems g).mp hg
    obtain ⟨m, hm, hok⟩ := exists_of_forall₂ (messages_ended h.ended).flip hmem
    exact (hone g data (hgs g hg)).mp ⟨m, hok, h.identity m hm⟩
  · intro h
    have hkept : ∀ p ∈ o.order f.res.items, ∃ m, messageOf job t f p.1 p.2 = .ok m
        ∧ HasIdentity drv (_fetch env drv c) job m := by
      intro p hp
      have hg : p.1 ∈ f.res := (hitems p.1).mpr ⟨p.2, hp⟩
      exact (hone p.1 p.2 (hgs p.1 hg)).mpr (h p.1 hg)
    have hended : (messages job t f (o.order f.res.items)).2 = none :=
      messages_of_ok (fun p hp => (hkept p hp).imp (fun m hm => hm.1))
    have hall := messages_ended hended
    refine ⟨hended, ?_, fun m hm => ?_⟩
    · have hnames : (messages job t f (o.order f.res.items)).1.map Message.group
          = (o.order f.res.items).map Prod.fst :=
        groups_of_messages hall
      rw [hnames, ← Dict.items_map_fst]
      exact (o.perm _).map Prod.fst
    · obtain ⟨p, hp, hok⟩ := exists_of_forall₂ hall hm
      obtain ⟨m', hok', hid⟩ := hkept p hp
      rw [hok] at hok'
      cases hok'
      exact hid

end identity

/-! ### The neighbours of a switch -/

/-- The stations that a switch has learned, by address. -/
def neighbourDriver (post : Option (List Driver.PostMap)) : PollDriver where
  posts := { groups := Dict.ofList [("neighbour", { keyName := "mac_address", post := post })] }
  groups := Dict.ofList [("neighbour",
    { additionalKeyNames := some ["mac_address", "vlan", "physical_port"] })]

def neighbourWorld : World where
  records := fun _ => Dict.ofList [("vlan", .int 12), ("physical_port", .str "Gi1/1")]
  next := 1
  data := ∅

def neighbours : Collected where
  res := Dict.ofList [("neighbour", Dict.ofList [("00:11:22:33:44:55", 0)])]

def neighbourJob : Job where
  taskId := some (.str "a1b2")
  spec := "spanning_tree"
  device := "swh-b050.slac.stanford.edu"

theorem identified_neighbours : ∃ f,
    fetch Driver.sampleEnv (neighbourDriver none) .stored neighbourWorld neighbours = .ok f
      ∧ Identified (neighbourDriver none) (_fetch Driver.sampleEnv (neighbourDriver none) neighbours)
        neighbourJob f (messages neighbourJob 0 f (IterOrder.stored.order f.res.items)) := by
  have hkeys : (fetch Driver.sampleEnv (neighbourDriver none) .stored neighbourWorld
      neighbours).toOption.map (fun f => f.res.keys) = some ["neighbour"] := by decide
  cases h : fetch Driver.sampleEnv (neighbourDriver none) .stored neighbourWorld neighbours with
  | error e =>
    rw [h] at hkeys
    cases hkeys
  | ok f =>
    refine ⟨f, rfl, (identified_iff h rfl .stored).mpr (fun g hg => Or.inl ?_)⟩
    rw [h] at hkeys
    have hg' : g ∈ ["neighbour"] := Option.some.inj hkeys ▸ AList.mem_keys.mp hg
    rw [List.mem_singleton.mp hg']
    decide

/-- The stations in groups by their vlan. -/
def splitDriver : PollDriver := neighbourDriver (some [.post_new_group_from_field (some "vlan")])

/-- A group that is made from a field carries the text of that field in place of the identifier
of the task. -/
theorem not_identified_neighbours : ∃ f,
    fetch Driver.sampleEnv splitDriver .stored neighbourWorld neighbours = .ok f
      ∧ ¬ Identified splitDriver (_fetch Driver.sampleEnv splitDriver neighbours) neighbourJob f
        (messages neighbourJob 0 f (IterOrder.stored.order f.res.items)) := by
  have htask : (fetch Driver.sampleEnv splitDriver .stored neighbourWorld neighbours).toOption.map
      (fun f => (messages neighbourJob 0 f (IterOrder.stored.order f.res.items)).1.map Message.taskId)
        = some [.str "vlan=12"] := by
    decide
  cases h : fetch Driver.sampleEnv splitDriver .stored neighbourWorld neighbours with
  | error e =>
    rw [h] at htask
    cases htask
  | ok f =>
    refine ⟨f, rfl, fun hid => ?_⟩
    rw [h] at htask
    have htexts : (messages neighbourJob 0 f
        (IterOrder.stored.order f.res.items)).1.map Message.taskId = [.str "vlan=12"] :=
      Option.some.inj htask
    have hmem : Value.str "vlan=12" ∈ (messages neighbourJob 0 f
        (IterOrder.stored.order f.res.items)).1.map Message.taskId := by
      rw [htexts]
      exact List.mem_singleton_self _
    obtain ⟨m, hm, htext⟩ := List.mem_map.mp hmem
    have hkept := (hid.identity m hm).taskId
    rw [htext] at hkept
    exact absurd hkept (by decide)

end Poll
