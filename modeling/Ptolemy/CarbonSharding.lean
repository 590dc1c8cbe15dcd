/-
# Consistency of the carbon shards

`MultiCarbonSupervisor.process_task` repacks the metrics of a message into one
message per carbon instance.  `processTask_sharded` says that the storers of
these messages together send exactly the metrics that the message itself
denotes, each at the instance that the ring assigns to its key.

The yielded messages are shaped differently from the original: every item holds
one metric and all index fields.  `workerCall` shows that the feeder gives
back the context and the metric that the supervisor had, `lookup_addMetrics`
that the messages are the classes of the metrics by instance, and
`setup_lookup` with `finish_hashText` that the routing key is the text of the
configured instance, although the hash key carries the port with its offset.
-/
import Ptolemy.Carbon

/-! ## Instances -/

/-- A configured instance `server:port:name` with a canonical decimal port. -/
structure Instance : Type where
  server : String
  port : Nat
  name : String
  server_plain : ':' ∉ server.toList
  name_plain : ':' ∉ name.toList

namespace Instance

/-- The text by which the instance is configured. -/
def text (i : Instance) : String := Text.join ":" [i.server, toString (i.port : Int), i.name]

def node (i : Instance) : Node := (i.server, i.name)

/-- The hash key of the instance: its text with the offset added to the port. -/
def hashText (i : Instance) (offset : Int) : String :=
  Text.join ":" [i.server, toString ((i.port : Int) + offset), i.name]

theorem split_join (i : Instance) (z : Int) :
    Text.split ':' (Text.join ":" [i.server, toString z, i.name])
      = [i.server, toString z, i.name] := by
  have hsep : (":" : String) = String.ofList [':'] := rfl
  rw [hsep, Text.split_join ':' _ (by simp)]
  intro s hs
  simp only [List.mem_cons, List.not_mem_nil, or_false] at hs
  rcases hs with rfl | rfl | rfl
  · exact i.server_plain
  · exact Text.notMem_toString (by decide) (by decide) z
  · exact i.name_plain

/-- Different instances have different hash keys. -/
theorem hashText_injective (offset : Int) :
    Function.Injective (fun i : Instance => i.hashText offset) := by
  intro i j h
  have hsplit : [i.server, toString ((i.port : Int) + offset), i.name]
      = [j.server, toString ((j.port : Int) + offset), j.name] := by
    rw [← i.split_join, ← j.split_join]
    exact congrArg (Text.split ':') h
  injection hsplit with hserver hsplit
  injection hsplit with hport hsplit
  injection hsplit with hname
  have hport' : (i.port : Int) + offset = (j.port : Int) + offset := by
    have hread := congrArg Text.int? hport
    rw [Text.int?_toString, Text.int?_toString] at hread
    exact Option.some.inj hread
  have hnat : i.port = j.port := by omega
  cases i
  cases j
  cases hserver
  cases hname
  cases hnat
  rfl

end Instance

/-- The prefix that the manager configures for its workers. -/
def workerKeyPrepend : String := "ptolemy."

namespace Supervisor

/-- Setting up keeps what is configured already and adds each instance with the offset
on its port. -/
theorem foldlM_setupInstance {is : List Instance} {sup sup' : Supervisor}
    (h : (is.map Instance.text).foldlM setupInstance sup = .ok sup') :
    sup'.portOffset = sup.portOffset ∧ sup'.keyPrepend = sup.keyPrepend
      ∧ (∀ n p, sup.instancePorts.lookup n = some p → sup'.instancePorts.lookup n = some p)
      ∧ ∀ i ∈ is, sup'.instancePorts.lookup i.node
          = some (toString ((i.port : Int) + sup.portOffset)) := by
  induction is generalizing sup with
  | nil =>
    cases h
    exact ⟨rfl, rfl, fun _ _ h => h, fun i hi => absurd hi List.not_mem_nil⟩
  | cons i is ih =>
    rw [List.map_cons, List.foldlM_cons, Except.bind_eq_ok] at h
    obtain ⟨sup₁, h₁, hrest⟩ := h
    have hsup₁ : i.node ∉ sup.instancePorts ∧ sup₁ = { sup with
        instancePorts := sup.instancePorts.insert i.node
          (toString ((i.port : Int) + sup.portOffset)) } := by
      unfold setupInstance at h₁
      rw [Instance.text, i.split_join] at h₁
      simp only [addInstance, Text.int?_toString] at h₁
      split_ifs at h₁ with hmem
      exact ⟨hmem, (Except.ok.inj h₁).symm⟩
    obtain ⟨hnew, rfl⟩ := hsup₁
    obtain ⟨hoff, hpre, hkeep, hall⟩ := ih hrest
    refine ⟨hoff, hpre, fun n p hn => hkeep n p ?_, fun j hj => ?_⟩
    · have hne : n ≠ i.node := by
        rintro rfl
        exact hnew (Dict.mem_iff_lookup.mpr ⟨p, hn⟩)
      show (AList.insert i.node _ sup.instancePorts).lookup n = some p
      rw [AList.lookup_insert_ne hne, hn]
    · rcases List.mem_cons.mp hj with rfl | hj
      · exact hkeep _ _ (AList.lookup_insert sup.instancePorts)
      · exact hall j hj

variable {offset : Int} {instances : List Instance} {sup : Supervisor}

theorem setup_lookup (hsetup : setup offset (instances.map Instance.text) = .ok sup) :
    sup.portOffset = offset ∧ sup.keyPrepend = workerKeyPrepend ∧ ∀ i ∈ instances,
      sup.instancePorts.lookup i.node = some (toString ((i.port : Int) + offset)) := by
  obtain ⟨hoff, hpre, -, hall⟩ := foldlM_setupInstance hsetup
  exact ⟨hoff, hpre, hall⟩

/-- The hash key of a metric is that of the instance which the ring gives for it. -/
theorem getHashKey_eq (hsetup : setup offset (instances.map Instance.text) = .ok sup)
    {ring : String → Node} {key : String} {i : Instance} (hi : i ∈ instances)
    (hring : ring key = i.node) : sup.getHashKey ring key = .ok (i.hashText offset) := by
  unfold getHashKey
  rw [hring, (setup_lookup hsetup).2.2 i hi]
  rfl

/-- The message of an instance gets the routing key of that instance. -/
theorem finish_hashText (hsetup : setup offset (instances.map Instance.text) = .ok sup)
    (i : Instance) (message : Message) :
    sup.finish (i.hashText offset) message = .ok { message with
      _meta := some { message._meta.getD {} with type := some "task", key := some i.text }
      fields := message.fields.insert "type" (.str "task") } := by
  have hport : (i.port : Int) + offset - offset = i.port := by omega
  unfold finish
  rw [Instance.hashText, i.split_join]
  simp only [Text.int?_toString, (setup_lookup hsetup).1, hport]
  rfl

end Supervisor

/-! ## What a storer sends -/

/-- The carbon key depends on the context only as a dictionary. -/
theorem getCarbonKey_congr {m m' : ItemMeta} (hflags : m.flags = m'.flags)
    (hspec : m.spec = m'.spec) (hgroup : m.group = m'.group) {c c' : Context}
    (h : Dict.Same c c') (keyPrepend : String) :
    getCarbonKey m c keyPrepend = getCarbonKey m' c' keyPrepend := by
  unfold getCarbonKey
  rw [hflags, hspec, hgroup, h "device", h.sortedKeys_eq]
  have hkeys : ∀ l : List String, l.map (fun k => ((c.lookup k).map Value.toText).getD "")
      = l.map (fun k => ((c'.lookup k).map Value.toText).getD "") := by
    intro l
    apply List.map_congr_left
    intro k _
    rw [h k]
  rw [hkeys]

/-- What one call of `save` sends. -/
def sentOf (keyPrepend : String) (call : SaveCall) : List Sent :=
  match getCarbonKey call.meta' call.context keyPrepend with
  | .error _ => []
  | .ok k => [⟨call.time, k, call.data⟩]

/-- The metrics that one call of `save` sends. -/
def metricsOf (keyPrepend : String) (call : SaveCall) : List Metric :=
  (sentOf keyPrepend call).flatMap Sent.metrics

namespace Feeder

theorem runItems_carbonStorer (keyPrepend : String) (time : Value) (m : ItemMeta)
    (ctx : Context) (delta : Option Int) (items : List Item) (sent : List Sent) :
    (runItems (carbonStorer keyPrepend).hooks time m ctx delta items sent).2
      = sent ++ (items.map (saveCall time m delta ctx)).flatMap (sentOf keyPrepend) := by
  induction items generalizing sent with
  | nil => simp [runItems]
  | cons i is ih =>
    unfold runItems
    rw [List.map_cons, List.flatMap_cons]
    simp only [Backend.hooks, _processTask, carbonStorer] at ih ⊢
    unfold sentOf
    cases getCarbonKey (saveCall time m delta ctx i).meta' (saveCall time m delta ctx i).context
        keyPrepend with
    | error e =>
      rw [List.nil_append]
      exact ih sent
    | ok k =>
      rw [← List.append_assoc]
      exact ih _

theorem runContexts_carbonStorer (keyPrepend : String) (time : Value) (m : ItemMeta)
    (delta : Option Int) (ps : List (Context × List Item)) (sent : List Sent) :
    (runContexts (carbonStorer keyPrepend).hooks time m delta ps sent).2
      = sent ++ (callsOf time m delta ps).flatMap (sentOf keyPrepend) := by
  induction ps generalizing sent with
  | nil => simp [runContexts, callsOf]
  | cons p ps ih =>
    have hctx : (runContext (carbonStorer keyPrepend).hooks time m delta p sent).2
        = sent ++ (p.2.map (saveCall time m delta p.1)).flatMap (sentOf keyPrepend) := by
      rw [← runItems_carbonStorer]
      rfl
    unfold runContexts
    simp only
    rw [ih, hctx, callsOf, callsOf, List.flatMap_cons, List.flatMap_append, List.append_assoc]

/-- The supervisor yields the calls that a storer would save. -/
theorem runContexts_supervisor (time : Value) (m : ItemMeta) (delta : Option Int)
    (ps : List (Context × List Item)) :
    runContexts Supervisor.hooks time m delta ps () = (callsOf time m delta ps, ()) := by
  have hitems : ∀ (ctx : Context) (items : List Item),
      runItems Supervisor.hooks time m ctx delta items ()
        = (items.map (saveCall time m delta ctx), ()) := by
    intro ctx items
    induction items with
    | nil => rfl
    | cons i is ih =>
      unfold runItems
      simp only [Supervisor.hooks] at ih ⊢
      rw [ih, List.map_cons]
  induction ps with
  | nil => rfl
  | cons p ps ih =>
    have hctx : runContext Supervisor.hooks time m delta p ()
        = (p.2.map (saveCall time m delta p.1), ()) := by
      have hpre : Supervisor.hooks.preBulkProcess time m p.1 p.2 () = (.ok true, ()) := rfl
      have hpost : Supervisor.hooks.postBulkProcess time m p.1 () = (.ok [], ()) := rfl
      unfold runContext
      simp only [hpre, hitems, hpost, if_true, List.append_nil]
    unfold runContexts
    simp only [hctx, ih]
    rw [callsOf, callsOf, List.flatMap_cons]

end Feeder

/-! ## The messages by instance -/

/-- A metric that the supervisor meets: the call it comes from, its field and its value. -/
abbrev CallMetric : Type := SaveCall × String × Value

/-- The metric under the carbon key of its call. -/
def CallMetric.metric (carbonKey : String) (x : CallMetric) : Metric :=
  ⟨carbonKey ++ "." ++ x.2.1, x.2.2, x.1.time⟩

namespace Supervisor

/-- The message for an instance, before it is finished. -/
def openMessage (m : ItemMeta) (thisContext : Context) (time : Value) (items : List Item) :
    Message :=
  { _meta := some (toMeta m), context := some thisContext, data := some (.list items),
    timestamp := some time }

/-- The item that the supervisor makes of a metric. -/
def partialOf (x : CallMetric) : Item := partialItem x.1.meta' x.1.context x.2.1 x.2.2

/-- **The messages are the classes of the metrics by instance**, when every metric has a hash
key and all metrics share time and metadata. -/
theorem lookup_addMetrics {sup : Supervisor} {ring : String → Node} {thisContext : Context}
    {m : ItemMeta} {time : Value} {l : List CallMetric} {hash : CallMetric → String}
    (hcalls : ∀ x ∈ l, x.1.meta' = m ∧ x.1.time = time)
    (hhash : ∀ x ∈ l, ∃ key, getCarbonKey x.1.meta' x.1.context sup.keyPrepend = .ok key
      ∧ sup.getHashKey ring (key ++ "." ++ x.2.1) = .ok (hash x)) :
    ∃ messages, l.foldlM (sup.addMetric ring thisContext) ∅ = .ok messages
      ∧ ∀ h, messages.lookup h = if (l.filter (fun x => hash x = h)).isEmpty then none
        else some (openMessage m thisContext time
          ((l.filter (fun x => hash x = h)).map partialOf)) := by
  induction l using List.reverseRecOn with
  | nil => exact ⟨∅, rfl, fun h => rfl⟩
  | append_singleton l x ih =>
    obtain ⟨messages, hfold, hlook⟩ := ih (fun y hy => hcalls y (List.mem_append_left _ hy))
      (fun y hy => hhash y (List.mem_append_left _ hy))
    have hx : x ∈ l ++ [x] := List.mem_append_right _ List.mem_cons_self
    obtain ⟨hm, ht⟩ := hcalls x hx
    obtain ⟨key, hkey, hh⟩ := hhash x hx
    set old := (l.filter (fun y => hash y = hash x)).map partialOf with hold
    have hstep : sup.addMetric ring thisContext messages x
        = .ok (messages.insert (hash x)
            (openMessage m thisContext time (old ++ [partialOf x]))) := by
      unfold addMetric
      rw [hkey, Except.ok_bind, hh, Except.ok_bind, hlook]
      cases hl : l.filter (fun y => hash y = hash x) with
      | nil =>
        have hnil : old = [] := by rw [hold, hl, List.map_nil]
        rw [hnil, partialOf, hm, ht]
        rfl
      | cons y ys =>
        rw [List.isEmpty_cons, if_neg Bool.false_ne_true, ← hl, ← hold]
        rfl
    refine ⟨messages.insert (hash x) (openMessage m thisContext time (old ++ [partialOf x])),
      ?_, fun h => ?_⟩
    · rw [List.foldlM_append, hfold, Except.ok_bind, List.foldlM_cons, hstep]
      rfl
    · rw [Dict.lookup_insert_eq, List.filter_append, List.filter_singleton]
      by_cases hhx : h = hash x
      · subst hhx
        simp [hold]
      · have hhx' : ¬ hash x = h := fun hc => hhx hc.symm
        rw [if_neg hhx, hlook]
        simp only [hhx', decide_false, cond_false, List.append_nil]

theorem lookup_partialItem (m : ItemMeta) (context : Context) (k₀ : String) (v : Value)
    (k : String) :
    (partialItem m context k₀ v).lookup k
      = (if k ∈ m.keyName then context.lookup k else none).or
          (if k = k₀ then some v else none) := by
  have hfold : ∀ (ks : List String) (d : Item), (ks.foldl (copyIndex context) d).lookup k
      = (if k ∈ ks then context.lookup k else none).or (d.lookup k) := by
    intro ks
    induction ks with
    | nil => intro d; rfl
    | cons x ks ih =>
      intro d
      rw [List.foldl_cons, ih]
      unfold copyIndex
      by_cases hkx : k = x
      · subst hkx
        cases context.lookup k with
        | none => simp
        | some w => by_cases hks : k ∈ ks <;> simp [hks, AList.lookup_insert]
      · cases context.lookup x with
        | none => simp [hkx]
        | some w => simp [hkx, AList.lookup_insert_ne]
  unfold partialItem
  rw [hfold, Dict.lookup_insert_eq, AList.lookup_empty]

end Supervisor

/-! ## The feeder on a yielded message -/

open Feeder

/-- A call for an item of one metric and all index fields has the context that the item was
made from, and the metric as its data. -/
theorem Feeder.Conserves.of_partialItem {base : Context} {m : ItemMeta} {context : Context}
    {k₀ : String} {v : Value} {call : SaveCall} (hbase : ∀ k, k ∈ base → k ∈ context)
    (hnamed : ∀ k, k ∈ context → k ∈ m.keyName) (hfresh : k₀ ∉ m.keyName)
    (h : Conserves base (fun k => k ∈ m.keyName)
      (Supervisor.partialItem m context k₀ v) call) :
    Dict.Same call.context context ∧ call.data.items = [(k₀, v)] := by
  have hitem : ∀ k, (Supervisor.partialItem m context k₀ v).lookup k
      = (context.lookup k).or (if k = k₀ then some v else none) := by
    intro k
    rw [Supervisor.lookup_partialItem]
    by_cases hk : k ∈ m.keyName
    · rw [if_pos hk]
    · rw [if_neg hk, AList.lookup_eq_none.mpr (fun hc => hk (hnamed k hc))]
  have hmem : ∀ k, k ∈ call.context ↔ k ∈ context := by
    intro k
    rw [h.context_keys]
    constructor
    · rintro (hk | ⟨hk, hp⟩)
      · exact hbase k hk
      · obtain ⟨w, hw⟩ := Dict.mem_iff_lookup.mp hp
        have hne : k ≠ k₀ := fun hc => hfresh (hc ▸ hk)
        rw [hitem, if_neg hne, Option.or_none] at hw
        exact Dict.mem_iff_lookup.mpr ⟨w, hw⟩
    · intro hk
      obtain ⟨w, hw⟩ := Dict.mem_iff_lookup.mp hk
      exact Or.inr ⟨hnamed k hk, Dict.mem_iff_lookup.mpr ⟨w, by rw [hitem, hw, Option.some_or]⟩⟩
  constructor
  · intro k
    by_cases hk : k ∈ context
    · have hdata : call.data.lookup k = none := AList.lookup_eq_none.mpr
        (fun hc => h.disjoint k ⟨(hmem k).mpr hk, hc⟩)
      have hunion := h.union k
      obtain ⟨w, hw⟩ := Dict.mem_iff_lookup.mp hk
      rw [hdata, Option.or_none, hitem, hw, Option.some_or, Option.some_or] at hunion
      rw [hunion, hw]
    · rw [AList.lookup_eq_none.mpr hk, AList.lookup_eq_none.mpr (fun hc => hk ((hmem k).mp hc))]
  · refine Dict.items_eq_singleton (fun k => ?_)
    by_cases hk : k ∈ context
    · have hne : k ≠ k₀ := fun hc => hfresh (hc ▸ hnamed k hk)
      rw [if_neg hne]
      exact AList.lookup_eq_none.mpr (fun hc => h.disjoint k ⟨(hmem k).mpr hk, hc⟩)
    · have hunion := h.union k
      rw [AList.lookup_eq_none.mpr (fun hc => hk ((hmem k).mp hc)), Option.none_or, hitem,
        AList.lookup_eq_none.mpr hk, Option.none_or,
        AList.lookup_eq_none.mpr (fun hc => hk (hbase k hc)), Option.or_none] at hunion
      exact hunion

theorem at_notMem_bareGroup (group : String) : '@' ∉ (bareGroup group).toList := by
  unfold bareGroup Text.partition
  split_ifs with hat
  · rw [String.toList_ofList]
    intro hc
    have h := List.mem_takeWhile_imp hc
    simp at h
  · exact hat

theorem subGroup_bareGroup (group : String) : subGroup (bareGroup group) = none := by
  unfold subGroup
  rw [if_neg (at_notMem_bareGroup group)]

theorem mem_baseContext {ctx : Context} {group k : String} :
    k ∈ baseContext ctx group ↔ k ∈ ctx ∨ ∃ v, subGroup group = some (k, v) := by
  unfold baseContext
  cases subGroup group with
  | none => simp
  | some p => simp [Prod.ext_iff, eq_comm, or_comm]

theorem mem_gatheredContext {this : Message} {m : Meta} {ctx : Context} {k : String} :
    k ∈ gatheredContext this m ctx
      ↔ (k ∈ m.keyName.elim [] KeyName.names ∧ k ∈ this.fields) ∨ k ∈ ctx := by
  rw [gatheredContext, Dict.mem_overlay, Dict.mem_restrict, decide_eq_true_eq]

namespace Supervisor

/-- The metadata of a message that the supervisor yields. -/
def finishedMeta (m : ItemMeta) (i : Instance) : Meta :=
  { toMeta m with type := some "task", key := some i.text }

/-- The message that the supervisor yields for an instance. -/
def yielded (m : ItemMeta) (thisContext : Context) (time : Value) (i : Instance)
    (items : List Item) : Message :=
  { openMessage m thisContext time items with
    _meta := some (finishedMeta m i)
    fields := AList.insert "type" (.str "task") ∅ }

/-- A yielded message is one that `_extract` accepts. -/
theorem extractable_yielded {this : Message} {m : Meta} {group spec : String} {ctx : Context}
    {time : Value} {data : Data} {items : List Item}
    (hex : Extractable this m group spec ctx time data items) {m' : ItemMeta}
    (hgroup : m'.group = bareGroup group)
    (hnames : ∀ k, k ∈ m'.keyName ↔ indexNames m (baseContext (gatheredContext this m ctx) group) k)
    (i : Instance) (ps : List Item) :
    Extractable (yielded m' ctx time i ps) (finishedMeta m' i) m'.group m'.spec ctx time
      (.list ps) ps where
  meta_eq := rfl
  group_eq := rfl
  spec_eq := rfl
  context_eq := rfl
  timestamp_eq := rfl
  data_eq := rfl
  items_eq := rfl
  group_form := fun hat => absurd (hgroup ▸ hat) (at_notMem_bareGroup group)
  keyNames_plain := by
    intro k hk
    rcases (hnames k).mp hk with hbase | hname
    · rcases mem_baseContext.mp hbase with hg | ⟨v, hv⟩
      · rcases mem_gatheredContext.mp hg with ⟨hname, -⟩ | hctx
        · exact hex.keyNames_plain k hname
        · exact Or.inl hctx
      · exact Or.inr (hex.subGroup_plain k v hv)
    · exact hex.keyNames_plain k hname
  subGroup_plain := by
    intro k v hv
    rw [hgroup, subGroup_bareGroup] at hv
    cases hv

end Supervisor

section Denotes

variable {κ : Type} [DecidableEq κ]

theorem denotes_of_extract {kv : Context → κ} {o : IterOrder} {this : Message} {m : Meta}
    {data : Data} {time : Value} {m' : ItemMeta} {contexts : List (Context × List Item)}
    (hdata : this.data = some data) (hmeta : this._meta = some m)
    (hext : extract kv o false this = .ok (time, m', contexts)) (keyPrepend : String) :
    denotes kv o keyPrepend this
      = .ok ((callsOf time m' m.archiveAfter contexts).flatMap (metricsOf keyPrepend)) := by
  have hsent := runContexts_carbonStorer keyPrepend time m' m.archiveAfter contexts []
  unfold denotes
  rw [processTask_of_extract _ hdata hmeta hext, Except.ok_bind]
  simp only
  rw [hsent, List.nil_append, List.flatMap_assoc]
  rfl

/-- A metric of a call whose context is made of all index fields and which has a carbon
key. -/
structure Recoverable (m : ItemMeta) (ctx : Context) (time : Value) (carbonKey : String)
    (x : CallMetric) : Prop where
  meta_eq : x.1.meta' = m
  time_eq : x.1.time = time
  keys_named : ∀ k, k ∈ x.1.context → k ∈ m.keyName
  field_fresh : x.2.1 ∉ m.keyName
  ctx_kept : ∀ k, k ∈ ctx → k ∈ x.1.context
  type_kept : "type" ∈ m.keyName → "type" ∈ x.1.context
  key_eq : getCarbonKey m x.1.context workerKeyPrepend = .ok carbonKey

theorem flatMap_eq_map_of_forall₂ {α β γ : Type} {R : α → β → Prop} {f : β → List γ} {g : α → γ}
    {l : List α} {r : List β} (h : List.Forall₂ R l r)
    (hfg : ∀ a ∈ l, ∀ b, R a b → f b = [g a]) : r.flatMap f = l.map g := by
  induction h with
  | nil => rfl
  | cons hab _ ih =>
    rw [List.flatMap_cons, hfg _ List.mem_cons_self _ hab,
      ih (fun a ha => hfg a (List.mem_cons_of_mem _ ha)), List.map_cons, List.singleton_append]

/-- **The storer of an instance sends the metrics of its class**, with the keys and the time
that the supervisor had. -/
theorem denotes_yielded {kv : Context → κ} (hkv : ∀ c c', kv c = kv c' ↔ Dict.Same c c')
    (o : IterOrder) {this : Message} {m : Meta} {group spec : String} {ctx : Context}
    {time : Value} {data : Data} {items : List Item}
    (hex : Extractable this m group spec ctx time data items) {m' : ItemMeta}
    (hgroup : m'.group = bareGroup group)
    (hnames : ∀ k, k ∈ m'.keyName ↔ indexNames m (baseContext (gatheredContext this m ctx) group) k)
    (i : Instance) {carbonKey : SaveCall → String} {l : List CallMetric}
    (hl : ∀ x ∈ l, Recoverable m' ctx time (carbonKey x.1) x) :
    ∃ own, denotes kv o workerKeyPrepend
        (Supervisor.yielded m' ctx time i (l.map Supervisor.partialOf)) = .ok own
      ∧ own.Perm (l.map (fun x => x.metric (carbonKey x.1))) := by
  have hex' := Supervisor.extractable_yielded hex hgroup hnames i (l.map Supervisor.partialOf)
  obtain ⟨m'', contexts, hext, ⟨hgroup'', hspec'', hflags'', -⟩, hcalls⟩ :=
    extract_extractable kv o false hex' (by simp) (fun c c' _ _ => hkv c c')
  obtain ⟨calls, hforall, hperm, -⟩ := hcalls none
  refine ⟨_, denotes_of_extract hex'.data_eq hex'.meta_eq hext workerKeyPrepend, ?_⟩
  have hgroup' : m''.group = m'.group := by
    rw [hgroup'', bareGroup, if_neg (hgroup ▸ at_notMem_bareGroup group)]
  have hmap : calls.flatMap (metricsOf workerKeyPrepend)
      = l.map (fun x => x.metric (carbonKey x.1)) := by
    refine flatMap_eq_map_of_forall₂ (List.forall₂_map_left_iff.mp hforall) ?_
    rintro x hmem call ⟨htime, hmeta, hcons⟩
    have hx := hl x hmem
    -- the base context of the message is part of the context of the metric
    have hbase : ∀ k, k ∈ baseContext (gatheredContext
        (Supervisor.yielded m' ctx time i (l.map Supervisor.partialOf))
        (Supervisor.finishedMeta m' i) ctx) m'.group → k ∈ x.1.context := by
      intro k hk
      rcases mem_baseContext.mp hk with hg | ⟨v, hv⟩
      · rcases mem_gatheredContext.mp hg with ⟨hname, hfield⟩ | hctx
        · have htype : k = "type" := by
            have hmem : k ∈ AList.insert "type" (Value.str "task") (∅ : Dict String Value) := hfield
            rw [AList.mem_insert] at hmem
            exact hmem.resolve_right (AList.notMem_empty k)
          subst htype
          exact hx.type_kept hname
        · exact hx.ctx_kept k hctx
      · rw [hgroup, subGroup_bareGroup] at hv
        cases hv
    have hitem : Supervisor.partialOf x = Supervisor.partialItem m' x.1.context x.2.1 x.2.2 := by
      rw [Supervisor.partialOf, hx.meta_eq]
    rw [hitem] at hcons
    obtain ⟨hsame, hdata⟩ := hcons.of_partialItem hbase hx.keys_named hx.field_fresh
    unfold metricsOf sentOf
    rw [hmeta, getCarbonKey_congr hflags'' hspec'' hgroup' hsame, hx.key_eq, htime]
    simp only [List.flatMap_singleton, Sent.metrics, hdata, List.map_singleton]
    rw [CallMetric.metric, hx.time_eq]
  rw [← hmap]
  exact hperm.flatMap_right _

end Denotes

/-! ## Sharding -/

/-- A message that can be sharded: `_extract` accepts it, every item with a metric has a
carbon key, and `type` is no key name that an item lacks. -/
structure Shardable (this : Message) (m : Meta) (group spec : String) (ctx : Context)
    (time : Value) (data : Data) (items : List Item) : Prop where
  extractable : Extractable this m group spec ctx time data items
  keyed : m.flags.carbonKey = none → ∀ i ∈ items,
    (∃ k, k ∈ i ∧ ¬ indexNames m (baseContext (gatheredContext this m ctx) group) k) →
    indexNames m (baseContext (gatheredContext this m ctx) group) "device" ∧
      ∃ d, (i.lookup "device").or
        ((baseContext (gatheredContext this m ctx) group).lookup "device") = some (.str d)
  typed : "type" ∈ m.keyName.elim [] KeyName.names → ∀ i ∈ items,
    "type" ∈ i ∨ "type" ∈ baseContext (gatheredContext this m ctx) group

/-- **Sharding consistency**: the supervisor yields messages whose storers send, each at the
instance of its routing key, the metrics that the ring assigns to that instance,
and together every metric of the original message exactly once. -/
def Sharded {κ : Type} [DecidableEq κ] (kv : Context → κ) (o o' : IterOrder)
    (ring : String → Node) (instances : List Instance) (sup : Supervisor) (this : Message) :
    Prop :=
  ∃ metrics msgs owns, denotes kv o workerKeyPrepend this = .ok metrics
    ∧ sup.processTask ring kv o this = .ok msgs
    ∧ List.Forall₂ (fun msg own => denotes kv o' workerKeyPrepend msg = .ok own
      ∧ ∃ i ∈ instances, msg._meta.bind Meta.key = some i.text
        ∧ ∀ x ∈ own, ring x.key = i.node) msgs owns
    ∧ owns.flatten.Perm metrics
    ∧ owns.Pairwise List.Disjoint

section Sharding

variable {κ : Type} [DecidableEq κ]

/-- The index fields of a call, and the metric fields of its data. -/
theorem Feeder.Conserves.field_fresh {base : Context} {m : Meta} {item : Item} {call : SaveCall}
    (h : Conserves base (fun k => k ∈ m.keyName.elim [] KeyName.names) item call) {k : String}
    (hk : k ∈ call.data) : k ∈ item ∧ ¬ indexNames m base k := by
  have hctx : k ∉ call.context := fun hc => h.disjoint k ⟨hc, hk⟩
  have hbase : k ∉ base := fun hc => hctx ((h.context_keys k).mpr (Or.inl hc))
  have hitem : k ∈ item := by
    obtain ⟨v, hv⟩ := Dict.mem_iff_lookup.mp hk
    have hunion := h.union k
    rw [AList.lookup_eq_none.mpr hctx, hv, Option.none_or, AList.lookup_eq_none.mpr hbase,
      Option.or_none] at hunion
    exact Dict.mem_iff_lookup.mpr ⟨v, hunion.symm⟩
  refine ⟨hitem, ?_⟩
  rintro (hb | hname)
  · exact hbase hb
  · exact hctx ((h.context_keys k).mpr (Or.inr ⟨hname, hitem⟩))

/-- A key of the context of a call has the value of the item or of the base context. -/
theorem Feeder.Conserves.lookup_context {base : Context} {names : String → Prop} {item : Item}
    {call : SaveCall} (h : Conserves base names item call) {k : String}
    (hk : k ∈ base ∨ (names k ∧ k ∈ item)) :
    call.context.lookup k = (item.lookup k).or (base.lookup k) := by
  have hmem : k ∈ call.context := (h.context_keys k).mpr hk
  have hdata : call.data.lookup k = none :=
    AList.lookup_eq_none.mpr (fun hc => h.disjoint k ⟨hmem, hc⟩)
  have hunion := h.union k
  rw [hdata, Option.or_none] at hunion
  exact hunion

/-- A metric of a shardable message can be recovered by a storer. -/
theorem Shardable.recoverable {this : Message} {m : Meta} {group spec : String} {ctx : Context}
    {time : Value} {data : Data} {items : List Item}
    (h : Shardable this m group spec ctx time data items) {m' : ItemMeta}
    (hflags : m'.flags = m.flags)
    (hnames : ∀ k, k ∈ m'.keyName ↔ indexNames m (baseContext (gatheredContext this m ctx) group) k)
    {item : Item} (hitem : item ∈ items) {x : CallMetric} (hmeta : x.1.meta' = m')
    (htime : x.1.time = time)
    (hcons : Conserves (baseContext (gatheredContext this m ctx) group)
      (fun k => k ∈ m.keyName.elim [] KeyName.names) item x.1)
    (hx : x.2.1 ∈ x.1.data) : ∃ key, Recoverable m' ctx time key x := by
  obtain ⟨hfield, hfresh⟩ := hcons.field_fresh hx
  have hkey : ∃ key, getCarbonKey m' x.1.context workerKeyPrepend = .ok key := by
    unfold getCarbonKey
    cases hc : m'.flags.carbonKey with
    | some k => exact ⟨k, rfl⟩
    | none =>
      obtain ⟨hdev, d, hd⟩ := h.keyed (hflags ▸ hc) item hitem ⟨_, hfield, hfresh⟩
      have hin : "device" ∈ baseContext (gatheredContext this m ctx) group
          ∨ ("device" ∈ m.keyName.elim [] KeyName.names ∧ "device" ∈ item) := by
        by_cases hb : "device" ∈ baseContext (gatheredContext this m ctx) group
        · exact Or.inl hb
        · rw [AList.lookup_eq_none.mpr hb, Option.or_none] at hd
          exact Or.inr ⟨hdev.resolve_left hb, Dict.mem_iff_lookup.mpr ⟨_, hd⟩⟩
      rw [hcons.lookup_context hin, hd]
      exact ⟨_, rfl⟩
  obtain ⟨key, hkey⟩ := hkey
  refine ⟨key, hmeta, htime, fun k hk => ?_, fun hc => hfresh ((hnames _).mp hc),
    fun k hk => ?_, fun hname => ?_, hkey⟩
  · rcases (hcons.context_keys k).mp hk with hb | ⟨hn, -⟩
    · exact (hnames k).mpr (Or.inl hb)
    · exact (hnames k).mpr (Or.inr hn)
  · exact (hcons.context_keys k).mpr
      (Or.inl (mem_baseContext.mpr (Or.inl (mem_gatheredContext.mpr (Or.inr hk)))))
  · rw [hcons.context_keys]
    rcases (hnames "type").mp hname with hb | hn
    · exact Or.inl hb
    · rcases h.typed hn item hitem with hi | hb
      · exact Or.inr ⟨hn, hi⟩
      · exact Or.inl hb

/-- The metrics that the supervisor meets, in its order. -/
def callMetrics (o : IterOrder) (calls : List SaveCall) : List CallMetric :=
  calls.flatMap (fun call => (o.order call.data.items).map (fun p => (call, p)))

omit [DecidableEq κ] in
theorem mem_callMetrics {o : IterOrder} {calls : List SaveCall} {x : CallMetric} :
    x ∈ callMetrics o calls ↔ x.1 ∈ calls ∧ x.2 ∈ x.1.data.items := by
  obtain ⟨call, p⟩ := x
  unfold callMetrics
  simp only [List.mem_flatMap, List.mem_map, IterOrder.mem_order]
  constructor
  · rintro ⟨call', hcall, q, hq, heq⟩
    cases heq
    exact ⟨hcall, hq⟩
  · rintro ⟨hcall, hp⟩
    exact ⟨call, hcall, p, hp, rfl⟩

/-- The metrics that the calls send are those that the supervisor meets. -/
theorem callMetrics_perm {o : IterOrder} {m : ItemMeta} {ctx : Context} {time : Value}
    {calls : List SaveCall} {carbonKey : SaveCall → String}
    (hrec : ∀ x ∈ callMetrics o calls, Recoverable m ctx time (carbonKey x.1) x) :
    ((callMetrics o calls).map (fun x => x.metric (carbonKey x.1))).Perm
      (calls.flatMap (metricsOf workerKeyPrepend)) := by
  unfold callMetrics
  rw [List.map_flatMap]
  refine List.Perm.flatMap_left _ (fun call hcall => ?_)
  rw [List.map_map]
  refine ((o.perm call.data.items).map _).trans ?_
  cases hitems : call.data.items with
  | nil =>
    unfold metricsOf sentOf
    cases getCarbonKey call.meta' call.context workerKeyPrepend with
    | error e => exact List.Perm.refl _
    | ok k =>
      simp only [List.flatMap_singleton, Sent.metrics, hitems]
      exact List.Perm.refl _
  | cons p ps =>
    have hp : (call, p) ∈ callMetrics o calls := mem_callMetrics.mpr
      ⟨hcall, by rw [hitems]; exact List.mem_cons_self⟩
    have hx := hrec _ hp
    have hkey : getCarbonKey call.meta' call.context workerKeyPrepend = .ok (carbonKey call) := by
      have hmeta : call.meta' = m := hx.meta_eq
      rw [hmeta]
      exact hx.key_eq
    unfold metricsOf sentOf
    rw [hkey]
    simp only [List.flatMap_singleton, Sent.metrics, hitems]
    exact List.Perm.refl _

/-- **Sharding**, for every order in which the supervisor and the storers visit the items
and every assignment of the metric keys to configured instances. -/
theorem processTask_sharded {kv : Context → κ} (hkv : ∀ c c', kv c = kv c' ↔ Dict.Same c c')
    (o o' : IterOrder) {offset : Int} {instances : List Instance} {sup : Supervisor}
    (hsetup : Supervisor.setup offset (instances.map Instance.text) = .ok sup)
    {ring : String → Node} (hring : ∀ key, ∃ i ∈ instances, ring key = i.node)
    {this : Message} {m : Meta} {group spec : String} {ctx : Context} {time : Value} {data : Data}
    {items : List Item} (h : Shardable this m group spec ctx time data items) :
    Sharded kv o o' ring instances sup this := by
  have hex := h.extractable
  obtain ⟨m', contexts, hext, ⟨hgroup, -, hflags, hnames⟩, hcalls⟩ :=
    extract_extractable kv o false hex (by simp) (fun c c' _ _ => hkv c c')
  obtain ⟨calls', hforall, hperm, -⟩ := hcalls m.archiveAfter
  set calls := callsOf time m' m.archiveAfter contexts with hcallsdef
  set l := callMetrics o calls with hldef
  set carbonKey : SaveCall → String :=
    fun call => (getCarbonKey m' call.context workerKeyPrepend).toOption.getD "" with hckdef
  have hmeta : ∀ x ∈ l, x.1.meta' = m' ∧ x.1.time = time := by
    intro x hx
    obtain ⟨item, -, htime, hm, -⟩ :=
      exists_of_forall₂ hforall (hperm.mem_iff.mp (mem_callMetrics.mp hx).1)
    exact ⟨hm, htime⟩
  -- every metric can be read back from the message that carries it
  have hrec : ∀ x ∈ l, Recoverable m' ctx time (carbonKey x.1) x := by
    intro x hx
    obtain ⟨hcall, hp⟩ := mem_callMetrics.mp hx
    obtain ⟨item, hitem, htime, hm, hcons⟩ := exists_of_forall₂ hforall (hperm.mem_iff.mp hcall)
    have hdata : x.2.1 ∈ x.1.data := Dict.mem_iff_lookup.mpr ⟨x.2.2, Dict.mem_items.mp hp⟩
    obtain ⟨key, hkey⟩ := h.recoverable hflags hnames hitem hm htime hcons hdata
    have hck : carbonKey x.1 = key := by
      rw [hckdef]
      simp only [hkey.key_eq]
      rfl
    rw [hck]
    exact hkey
  -- the instance of a metric, and its hash key
  choose inst hinst hinstring using hring
  set hash : CallMetric → String :=
    fun x => (inst (x.metric (carbonKey x.1)).key).hashText offset with hhashdef
  obtain ⟨messages, hfold, hlook⟩ := @Supervisor.lookup_addMetrics sup ring ctx _ _ l hash hmeta (by
      intro x hx
      refine ⟨carbonKey x.1, ?_, Supervisor.getHashKey_eq hsetup (hinst _) (hinstring _)⟩
      rw [(hmeta x hx).1, (Supervisor.setup_lookup hsetup).2.1]
      exact (hrec x hx).key_eq)
  set cls : String → List CallMetric := fun q => l.filter (fun x => hash x = q) with hclsdef
  set entries := o.order messages.items with hentries
  have hkeys : (entries.map Prod.fst).Nodup := messages.nodup_order_keys o
  -- each entry is the open message of a class that is not empty
  have hentry : ∀ e ∈ entries, (∃ x ∈ l, hash x = e.1)
      ∧ e.2 = Supervisor.openMessage m' ctx time ((cls e.1).map Supervisor.partialOf) := by
    rintro ⟨q, msg⟩ he
    have hq := Dict.mem_items.mp (IterOrder.mem_order o |>.mp he)
    rw [hlook] at hq
    split_ifs at hq with hempty
    refine ⟨?_, (Option.some.inj hq).symm⟩
    obtain ⟨x, hx⟩ := List.exists_mem_of_ne_nil (l.filter (fun x => decide (hash x = q)))
      (fun hc => hempty (by rw [hc]; rfl))
    obtain ⟨hxl, hxq⟩ := List.mem_filter.mp hx
    exact ⟨x, hxl, of_decide_eq_true hxq⟩
  -- a hash key names one instance, and its class is published to that one
  have hinstance : ∀ q, ∃ i, (∃ x ∈ l, hash x = q) → i ∈ instances ∧ i.hashText offset = q := by
    intro q
    by_cases hq : ∃ x ∈ l, hash x = q
    · obtain ⟨x, -, hx⟩ := hq
      exact ⟨_, fun _ => ⟨hinst _, hx⟩⟩
    · exact ⟨inst "", fun hc => absurd hc hq⟩
  choose keyInst hkeyInst using hinstance
  have hown : ∀ q, ∃ own, denotes kv o' workerKeyPrepend (Supervisor.yielded m' ctx time
        (keyInst q) ((cls q).map Supervisor.partialOf)) = .ok own
      ∧ own.Perm ((cls q).map (fun x => x.metric (carbonKey x.1))) := fun q =>
    denotes_yielded hkv o' hex hgroup hnames (keyInst q)
      (fun x hx => hrec x (List.mem_of_mem_filter hx))
  choose own hdenotes hownperm using hown
  -- no metric is in the messages of two instances
  have hownkey : ∀ q, ∀ x ∈ own q, (inst x.key).hashText offset = q := by
    intro q x hx
    obtain ⟨y, hy, rfl⟩ := List.mem_map.mp ((hownperm q).mem_iff.mp hx)
    exact of_decide_eq_true (List.mem_filter.mp hy).2
  refine ⟨calls.flatMap (metricsOf workerKeyPrepend),
    entries.map (fun e => Supervisor.yielded m' ctx time (keyInst e.1)
      ((cls e.1).map Supervisor.partialOf)),
    entries.map (fun e => own e.1), denotes_of_extract hex.data_eq hex.meta_eq hext _, ?_, ?_,
    ?_, ?_⟩
  · have hmap : entries.mapM (fun e => sup.finish e.1 e.2) = .ok (entries.map (fun e =>
        Supervisor.yielded m' ctx time (keyInst e.1) ((cls e.1).map Supervisor.partialOf))) := by
      refine Except.mapM_eq_map (fun e he => ?_)
      obtain ⟨hex', he₂⟩ := hentry e he
      have hfinish := Supervisor.finish_hashText hsetup (keyInst e.1) e.2
      rw [(hkeyInst e.1 hex').2] at hfinish
      rw [hfinish, he₂]
      rfl
    unfold Supervisor.processTask
    rw [hex.context_eq, Option.elim_some, pure_bind, processTask_of_extract _ hex.data_eq
      hex.meta_eq hext, runContexts_supervisor, Except.ok_bind]
    show ((callMetrics o calls).foldlM (sup.addMetric ring ctx) ∅ >>= _) = _
    rw [hfold, Except.ok_bind]
    exact hmap
  · rw [List.forall₂_map_left_iff, List.forall₂_map_right_iff]
    refine List.forall₂_same.mpr (fun e he => ?_)
    obtain ⟨hmem, htext⟩ := hkeyInst e.1 (hentry e he).1
    refine ⟨hdenotes e.1, keyInst e.1, hmem, rfl, fun x hx => ?_⟩
    have hsame : inst x.key = keyInst e.1 :=
      Instance.hashText_injective offset ((hownkey e.1 x hx).trans htext.symm)
    rw [hinstring, hsame]
  · have hclasses : ((entries.map (fun e => own e.1)).flatten).Perm
        (((entries.map Prod.fst).flatMap cls).map (fun x => x.metric (carbonKey x.1))) := by
      rw [← List.flatMap_def, List.flatMap_map, List.map_flatMap]
      exact List.Perm.flatMap_left _ (fun e _ => hownperm e.1)
    have hcover : ∀ x ∈ l, hash x ∈ entries.map Prod.fst := by
      intro x hx
      have hmem : x ∈ cls (hash x) := List.mem_filter.mpr ⟨hx, decide_eq_true rfl⟩
      have hne : (cls (hash x)).isEmpty = false := by
        rw [List.isEmpty_eq_false_iff]
        exact List.ne_nil_of_mem hmem
      have hx' := hlook (hash x)
      rw [if_neg (by rw [hne]; exact Bool.false_ne_true)] at hx'
      exact List.mem_map.mpr ⟨_, (IterOrder.mem_order o).mpr (Dict.mem_items.mpr hx'), rfl⟩
    exact (hclasses.trans ((Dict.flatMap_filter_perm hash _ hkeys l hcover).map _)).trans
      (callMetrics_perm hrec)
  · rw [List.pairwise_map]
    refine (List.pairwise_map.mp hkeys).imp (fun {e e'} hne x hx hx' => hne ?_)
    rw [← hownkey e.1 x hx, ← hownkey e'.1 x hx']

end Sharding

/-! ## Concrete messages -/

/-- An injective text of a context: its entries in key order. -/
def contextEntries (c : Context) : List (String × Option Value) :=
  (Dict.sortedKeys c).map (fun k => (k, c.lookup k))

theorem contextEntries_eq_iff (c c' : Context) :
    contextEntries c = contextEntries c' ↔ Dict.Same c c' := by
  constructor
  · intro h k
    have hkeys : Dict.sortedKeys c = Dict.sortedKeys c' := by
      have hfst := congrArg (List.map Prod.fst) h
      simpa [contextEntries, Function.comp_def] using hfst
    by_cases hk : k ∈ c
    · have hmem : (k, c.lookup k) ∈ contextEntries c' := by
        rw [← h]
        exact List.mem_map_of_mem (Dict.mem_sortedKeys.mpr hk)
      obtain ⟨k', -, heq⟩ := List.mem_map.mp hmem
      obtain ⟨rfl, hv⟩ := Prod.mk.inj heq
      exact hv.symm
    · have hk' : k ∉ c' := by
        rw [← Dict.mem_sortedKeys, ← hkeys, Dict.mem_sortedKeys]
        exact hk
      rw [AList.lookup_eq_none.mpr hk, AList.lookup_eq_none.mpr hk']
  · intro h
    unfold contextEntries
    rw [h.sortedKeys_eq]
    apply List.map_congr_left
    intro k _
    rw [h k]

/-- Two instances of one carbon server. -/
def carbonA : Instance := ⟨"carbon", 2003, "a", by decide, by decide⟩

def carbonB : Instance := ⟨"carbon", 2103, "b", by decide, by decide⟩

/-- The supervisor of both, listening with an offset of 1000. -/
def carbonSupervisor : Supervisor where
  instancePorts := Dict.ofList [(("carbon", "a"), "3003"), (("carbon", "b"), "3103")]
  portOffset := 1000

theorem setup_carbonSupervisor :
    Supervisor.setup 1000 ([carbonA, carbonB].map Instance.text) = .ok carbonSupervisor := rfl

/-- A ring that looks at the length of the key. -/
def lengthRing (key : String) : Node :=
  if key.length % 2 = 0 then carbonA.node else carbonB.node

theorem lengthRing_mem (key : String) : ∃ i ∈ [carbonA, carbonB], lengthRing key = i.node := by
  unfold lengthRing
  split_ifs
  · exact ⟨carbonA, List.mem_cons_self, rfl⟩
  · exact ⟨carbonB, List.mem_cons_of_mem _ List.mem_cons_self, rfl⟩

/-- Interface counters of one device. -/
def interfaceMessage (group : String) (keyName : List String) (ctx : Context)
    (items : List Item) : Message where
  _meta := some { group := some group, spec := some "interface", keyName := some (.many keyName) }
  context := some ctx
  timestamp := some (.int 100)
  data := some (.list items)

theorem shardable_interfaceMessage :
    Shardable
      (interfaceMessage "stats@vlan=5" ["port"] (Dict.ofList [("device", .str "rtr-core1")])
        [Dict.ofList [("port", .str "1/1"), ("errors", .int 4), ("octets", .int 17)]])
      { group := some "stats@vlan=5", spec := some "interface",
        keyName := some (.many ["port"]) }
      "stats@vlan=5" "interface" (Dict.ofList [("device", .str "rtr-core1")]) (.int 100)
      (.list [Dict.ofList [("port", .str "1/1"), ("errors", .int 4), ("octets", .int 17)]])
      [Dict.ofList [("port", .str "1/1"), ("errors", .int 4), ("octets", .int 17)]] where
  extractable :=
    { meta_eq := rfl
      group_eq := rfl
      spec_eq := rfl
      context_eq := rfl
      timestamp_eq := rfl
      data_eq := rfl
      items_eq := rfl
      group_form := by decide
      keyNames_plain := by decide
      subGroup_plain := by
        intro k v h
        have hkv : subGroup "stats@vlan=5" = some ("vlan", .int 5) := by decide
        rw [hkv] at h
        cases h
        decide }
  keyed := by
    intro _ i hi _
    rw [List.mem_singleton] at hi
    subst hi
    exact ⟨Or.inl (by decide), "rtr-core1", by decide⟩
  typed := by decide

/-- Sharding of a message with two counters, whose keys have lengths of both parities. -/
theorem processTask_sharded_interfaceMessage :
    Sharded contextEntries IterOrder.reversed IterOrder.stored lengthRing [carbonA, carbonB]
      carbonSupervisor
      (interfaceMessage "stats@vlan=5" ["port"] (Dict.ofList [("device", .str "rtr-core1")])
        [Dict.ofList [("port", .str "1/1"), ("errors", .int 4), ("octets", .int 17)]]) :=
  processTask_sharded contextEntries_eq_iff IterOrder.reversed IterOrder.stored
    setup_carbonSupervisor lengthRing_mem shardable_interfaceMessage

/-- What the storers of a sharded message send, together. -/
theorem Sharded.denotes_map {κ : Type} [DecidableEq κ] {kv : Context → κ} {o o' : IterOrder}
    {ring : String → Node} {instances : List Instance} {sup : Supervisor} {this : Message}
    (h : Sharded kv o o' ring instances sup this) :
    ∃ (metrics : List Metric) (owns : List (List Metric)),
      denotes kv o workerKeyPrepend this = .ok metrics
      ∧ (sup.processTask ring kv o this).map
          (fun msgs => msgs.map (denotes kv o' workerKeyPrepend)) = .ok (owns.map .ok)
      ∧ owns.flatten.Perm metrics := by
  obtain ⟨metrics, msgs, owns, hmetrics, hmsgs, hown, hperm, -⟩ := h
  have hmap : msgs.map (denotes kv o' workerKeyPrepend) = owns.map .ok := by
    clear hmsgs hperm
    induction hown with
    | nil => rfl
    | cons hab _ ih => rw [List.map_cons, List.map_cons, hab.1, ih]
  refine ⟨metrics, owns, hmetrics, ?_, hperm⟩
  rw [hmsgs, ← hmap]
  rfl

/-- Messages that are not sharded: one whose group names the time, which the storer then
misses; one with the key name `type`, which the storer then finds in the message;
and one of whose items has no device, so that the supervisor raises. -/
theorem not_sharded_interfaceMessage :
    ¬ Sharded contextEntries IterOrder.stored IterOrder.stored lengthRing [carbonA, carbonB]
        carbonSupervisor (interfaceMessage "stats@timestamp=5" []
          (Dict.ofList [("device", .str "rtr-core1")]) [Dict.ofList [("errors", .int 4)]])
      ∧ ¬ Sharded contextEntries IterOrder.stored IterOrder.stored lengthRing [carbonA, carbonB]
        carbonSupervisor (interfaceMessage "stats" ["type"]
          (Dict.ofList [("device", .str "rtr-core1")]) [Dict.ofList [("errors", .int 4)]])
      ∧ ¬ Sharded contextEntries IterOrder.stored IterOrder.stored lengthRing [carbonA, carbonB]
        carbonSupervisor (interfaceMessage "stats" ["device"] ∅
          [Dict.ofList [("device", .str "rtr-core1"), ("errors", .int 4)],
            Dict.ofList [("errors", .int 5)]]) := by
  refine ⟨fun h => ?_, fun h => ?_, fun h => ?_⟩
  · obtain ⟨metrics, owns, -, howns, -⟩ := h.denotes_map
    have hrun : (carbonSupervisor.processTask lengthRing contextEntries IterOrder.stored
        (interfaceMessage "stats@timestamp=5" []
          (Dict.ofList [("device", .str "rtr-core1")]) [Dict.ofList [("errors", .int 4)]])).map
        (fun msgs => msgs.map (denotes contextEntries IterOrder.stored workerKeyPrepend))
        = .ok [.error (.typeError
            "exceptions must be old-style classes or derived from BaseException")] := rfl
    rw [hrun] at howns
    rcases owns with _ | ⟨own, owns⟩ <;> cases howns
  · obtain ⟨metrics, owns, hmetrics, howns, hperm⟩ := h.denotes_map
    have hrun : (carbonSupervisor.processTask lengthRing contextEntries IterOrder.stored
        (interfaceMessage "stats" ["type"]
          (Dict.ofList [("device", .str "rtr-core1")]) [Dict.ofList [("errors", .int 4)]])).map
        (fun msgs => msgs.map (denotes contextEntries IterOrder.stored workerKeyPrepend))
        = .ok [.ok [⟨"ptolemy.rtr-core1.interface.stats.task.errors", .int 4, .int 100⟩]] := rfl
    have hthis : denotes contextEntries IterOrder.stored workerKeyPrepend
        (interfaceMessage "stats" ["type"]
          (Dict.ofList [("device", .str "rtr-core1")]) [Dict.ofList [("errors", .int 4)]])
        = .ok [⟨"ptolemy.rtr-core1.interface.stats..errors", .int 4, .int 100⟩] := rfl
    rw [hrun] at howns
    rw [hthis] at hmetrics
    cases hmetrics
    have hflat : owns = [[⟨"ptolemy.rtr-core1.interface.stats.task.errors", .int 4, .int 100⟩]] := by
      rcases owns with _ | ⟨own, _ | ⟨own', owns⟩⟩
      · cases howns
      · cases howns
        rfl
      · cases howns
    rw [hflat] at hperm
    revert hperm
    decide
  · obtain ⟨metrics, owns, -, howns, -⟩ := h.denotes_map
    have hrun : (carbonSupervisor.processTask lengthRing contextEntries IterOrder.stored
        (interfaceMessage "stats" ["device"] ∅
          [Dict.ofList [("device", .str "rtr-core1"), ("errors", .int 4)],
            Dict.ofList [("errors", .int 5)]])).map
        (fun msgs => msgs.map (denotes contextEntries IterOrder.stored workerKeyPrepend))
        = .error (.keyError "device") := rfl
    rw [hrun] at howns
    cases howns
