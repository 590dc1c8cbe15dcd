/-
# From published messages to alerts

The worker of the generic analysis keeps one key in redis for each stanza and context.  What it
does with one of the keys, among all messages for all stanzas and contexts, is what a run of
`AnalyseWorker.step` does with the items for this stanza and context alone.

So the alerts that it puts into the queue under a key are, from when the key was created, those of
the lifecycle of the observations, whatever other messages are published in between.
-/
import Ptolemy.AnalyseRouting

/-- A fold over a list without duplicates, in which one element leads from `P` to `Q`, and the
others keep both. -/
theorem List.foldl_once {σ α : Type*} {f : σ → α → σ} {P Q : σ → Prop} {a : α} {l : List α}
    (hl : l.Nodup) (hP : ∀ x ∈ l, x ≠ a → ∀ s, P s → P (f s x))
    (hQ : ∀ x ∈ l, x ≠ a → ∀ s, Q s → Q (f s x)) (ha : ∀ s, P s → Q (f s a)) (hmem : a ∈ l)
    {s : σ} (hs : P s) : Q (l.foldl f s) := by
  obtain ⟨l₁, l₂, rfl⟩ := List.append_of_mem hmem
  obtain ⟨hnot₁, hnot₂⟩ : a ∉ l₁ ∧ a ∉ l₂ := by
    rw [List.nodup_middle, List.nodup_cons, List.mem_append, not_or] at hl
    exact hl.1
  rw [List.foldl_append, List.foldl_cons]
  refine List.foldlRecOn l₂ f (ha _ (List.foldlRecOn l₁ f hs (fun s hs x hx => ?_)))
    (fun s hs x hx => ?_)
  · exact hP x (List.mem_append_left _ hx) (fun h => hnot₁ (h ▸ hx)) s hs
  · exact hQ x (List.mem_append_right _ (List.mem_cons_of_mem a hx)) (fun h => hnot₂ (h ▸ hx)) s hs

namespace AnalyseWorker

open AlertWorkerManager (phases)

/-! ## The queue of alerts -/

/-- The name of a stanza up to its colon; with two colons it raises. -/
def metric (name : String) : Option String :=
  match Text.split ':' name with
  | [m] => some m
  | [m, _] => some m
  | _ => none

/-- A message in the queue of alerts. -/
structure Task : Type where
  context : Context
  condition : Directive
  report : Report

section tasks

variable (cfg : Config)

def process_alert (a : Alert) : Option Task := do
  let d ← cfg.analyse.lookup a.name
  let m ← metric a.name
  some ⟨AList.insert "metric" (.str m) a.context, d, a.report⟩

/-- The alerts under a key. -/
def alertsUnder (key : String) (w : Worker) : List Alert :=
  w.alerts.filter (fun a => get_key cfg a.name a.context = key)

/-- What was put into the queue for them. -/
def tasksUnder (key : String) (w : Worker) : List Task :=
  (alertsUnder cfg key w).filterMap (process_alert cfg)

/-! ## The items of one stanza and context -/

variable (name : String) (d : Directive) (key : String)

/-- The items of a call of `save` for a stanza, if it is for the key. -/
def eventsOf (c : SaveCall) : List Event :=
  if get_key cfg name c.context = key then
    (if d.what = ⟨c.meta'.spec, c.meta'.group⟩ then [.what (Dict.overlay c.data c.context)] else [])
      ++ (if d.when = ⟨c.meta'.spec, c.meta'.group⟩ then [.when c.data] else [])
  else []

/-- The items of an input. -/
def Input.events : Input → List Event
  | .message msg => (calls cfg msg).flatMap (eventsOf cfg name d key)
  | .lose _ => []

/-- No other stanza has the key for the context of a call. -/
def Apart (c : SaveCall) : Prop :=
  ∀ name' ∈ cfg.analyse, get_key cfg name' c.context = key → name' = name

/-- An input that leaves the key to the stanza, and does not lose it. -/
def Input.Apart : Input → Prop
  | .message msg => ∀ c ∈ calls cfg msg, AnalyseWorker.Apart cfg name key c
  | .lose key' => key' ≠ key

end tasks

/-! ## One key of the worker -/

section key

variable {cfg : Config} (aenv : AlertWorkerManager.Env) {name : String} {d : Directive}
  {key : String} {old : List Alert}

/-- The key is that of a run of the stanza, and the alerts under it are the old ones and those of
the run. -/
def Follows (cfg : Config) (name key : String) (old : List Alert) (s : State) (w : Worker) :
    Prop :=
  w.cells.lookup key = s.key
    ∧ ∃ new, alertsUnder cfg key w = old ++ new ∧ (∀ a ∈ new, a.name = name)
    ∧ new.flatMap (fun a => phases aenv a.report.data) = s.alerts.flatten

theorem lookup_put_self (key : String) (cell : Option Cell) (cells : Dict String Cell) :
    (put key cell cells).lookup key = cell := by
  cases cell with
  | none => simp [put]
  | some c => exact AList.lookup_insert cells

theorem lookup_put_of_ne {key key' : String} (h : key' ≠ key) (cell : Option Cell)
    (cells : Dict String Cell) : (put key cell cells).lookup key' = cells.lookup key' := by
  cases cell with
  | none => exact AList.lookup_erase_ne h
  | some c => exact AList.lookup_insert_ne h

/-- Another key leaves this one alone. -/
theorem Follows.saveWhat_of_ne {s : State} {w : Worker} {context : Context} {data : Item}
    {name' : String} (h : Follows aenv cfg name key old s w)
    (hne : get_key cfg name' context ≠ key) :
    Follows aenv cfg name key old s (saveWhat cfg context data w name') := by
  unfold saveWhat
  cases cfg.analyse.lookup name' with
  | none => exact h
  | some d => exact ⟨(lookup_put_of_ne hne.symm _ _).trans h.1, h.2⟩

theorem Follows.saveWhen_of_ne {s : State} {w : Worker} {context : Context} {data : Item}
    {name' : String} (h : Follows aenv cfg name key old s w)
    (hne : get_key cfg name' context ≠ key) :
    Follows aenv cfg name key old s (saveWhen cfg context data w name') := by
  unfold saveWhen
  cases cfg.analyse.lookup name' with
  | none => exact h
  | some d =>
    simp only
    cases process_when cfg.env d.fields (w.cells.lookup (get_key cfg name' context)) data with
    | none => exact h
    | some r =>
      refine ⟨(lookup_put_of_ne hne.symm _ _).trans h.1, ?_⟩
      obtain ⟨new, hnew, hall⟩ := h.2
      refine ⟨new, ?_, hall⟩
      have hnone : (r.2.toList.map (fun r => (⟨name', context, r⟩ : Alert))).filter
          (fun a => get_key cfg a.name a.context = key) = [] := by
        refine List.filter_eq_nil_iff.mpr (fun a ha => ?_)
        obtain ⟨r', -, rfl⟩ := List.mem_map.mp ha
        simpa using hne
      rw [← hnew, alertsUnder, List.filter_append, hnone, List.append_nil, alertsUnder]

/-- The stanza itself takes a step. -/
theorem Follows.saveWhat_self {s : State} {w : Worker} {context : Context} {data : Item}
    (h : Follows aenv cfg name key old s w) (hd : cfg.analyse.lookup name = some d)
    (hkey : get_key cfg name context = key) :
    Follows aenv cfg name key old (step cfg.env aenv d.fields s (.what (Dict.overlay data context)))
      (saveWhat cfg context data w name) := by
  subst hkey
  unfold saveWhat
  rw [hd]
  refine ⟨(lookup_put_self _ _ _).trans ?_, h.2⟩
  rw [h.1]
  rfl

/-- A report is about an item with the field of the stanza. -/
theorem lookup_of_report {env : Env} {d : Stanza} {key cell : Option Cell} {data : Item}
    {r : Report}
    (h : process_when env d key data = some (cell, some r)) :
    (data.lookup d.name).isSome := by
  unfold process_when at h
  cases key with
  | none => cases h
  | some c =>
    cases hvalue : data.lookup d.name with
    | none => simp [hvalue] at h
    | some value => rfl

theorem Follows.saveWhen_self {s : State} {w : Worker} {context : Context} {data : Item}
    (h : Follows aenv cfg name key old s w) (hd : cfg.analyse.lookup name = some d)
    (hkey : get_key cfg name context = key) :
    Follows aenv cfg name key old (step cfg.env aenv d.fields s (.when data))
      (saveWhen cfg context data w name) := by
  subst hkey
  obtain ⟨hcell, new, hnew, hname, hphases⟩ := h
  unfold saveWhen
  simp only [hd, hcell]
  show Follows aenv cfg name _ old (observe cfg.env aenv d.fields s data) _
  unfold observe
  cases hwhen : process_when cfg.env d.fields s.key data with
  | none =>
    cases data.lookup d.fields.name with
    | none => exact ⟨hcell, new, hnew, hname, hphases⟩
    | some value => exact ⟨hcell, new, hnew, hname, by simp [hphases]⟩
  | some r =>
    obtain ⟨cell, report⟩ := r
    have hunder : alertsUnder cfg (get_key cfg name context)
        ⟨put (get_key cfg name context) cell w.cells,
          w.alerts ++ report.toList.map (fun r => ⟨name, context, r⟩)⟩
        = old ++ (new ++ report.toList.map (fun r => ⟨name, context, r⟩)) := by
      rw [alertsUnder, List.filter_append, ← List.append_assoc, ← hnew, alertsUnder]
      congr 1
      refine List.filter_eq_self.mpr (fun a ha => ?_)
      obtain ⟨r, -, rfl⟩ := List.mem_map.mp ha
      exact decide_eq_true rfl
    have hnames : ∀ a ∈ new ++ report.toList.map (fun r => (⟨name, context, r⟩ : Alert)),
        a.name = name := by
      intro a ha
      rcases List.mem_append.mp ha with ha | ha
      · exact hname a ha
      · obtain ⟨r, -, rfl⟩ := List.mem_map.mp ha
        rfl
    cases hvalue : data.lookup d.fields.name with
    | none =>
      cases report with
      | none => exact ⟨lookup_put_self _ _ _, _, hunder, hnames, by simpa using hphases⟩
      | some r =>
        have hsome := lookup_of_report hwhen
        rw [hvalue] at hsome
        cases hsome
    | some value =>
      refine ⟨lookup_put_self _ _ _, _, hunder, hnames, ?_⟩
      cases report <;> simp [hphases]

theorem nodup_find (half : Directive → Kind) (k : Kind) : (find cfg half k).Nodup := by
  have hkeys : (cfg.analyse.items.map Prod.fst).Nodup := by
    rw [Dict.items_map_fst]
    exact cfg.analyse.keys_nodup
  exact (cfg.order.perm _).nodup_iff.mpr
    (List.Nodup.sublist (List.filter_sublist.map Prod.fst) hkeys)

/-- One half of the stanzas, in their order: the run takes a step if the stanza is among them. -/
theorem Follows.foldl_find {s s' : State} {half : Directive → Kind} {k : Kind}
    {f : Worker → String → Worker}
    (hd : cfg.analyse.lookup name = some d)
    (hother : ∀ name' ∈ cfg.analyse, name' ≠ name → ∀ s w, Follows aenv cfg name key old s w →
      Follows aenv cfg name key old s (f w name'))
    (hself : ∀ w, Follows aenv cfg name key old s w → Follows aenv cfg name key old s' (f w name))
    {w : Worker} (h : Follows aenv cfg name key old s w) :
    Follows aenv cfg name key old (if half d = k then s' else s) ((find cfg half k).foldl f w) := by
  have hmem : ∀ x ∈ find cfg half k, x ∈ cfg.analyse := by
    intro x hx
    obtain ⟨d', hd', -⟩ := mem_find.mp hx
    exact Dict.mem_iff_lookup.mpr ⟨d', hd'⟩
  split_ifs with hk
  · exact List.foldl_once (nodup_find half k) (fun x hx hne w => hother x (hmem x hx) hne s w)
      (fun x hx hne w => hother x (hmem x hx) hne s' w) hself (mem_find.mpr ⟨d, hd, hk⟩) h
  · refine List.foldlRecOn _ f h (fun w hw x hx => hother x (hmem x hx) ?_ s w hw)
    rintro rfl
    obtain ⟨d', hd', hk'⟩ := mem_find.mp hx
    obtain rfl : d = d' := Option.some.inj (hd.symm.trans hd')
    exact hk hk'

/-- A call of `save` is a run of its items. -/
theorem Follows.save {s : State} {w : Worker} {c : SaveCall}
    (h : Follows aenv cfg name key old s w) (hd : cfg.analyse.lookup name = some d)
    (hapart : Apart cfg name key c) :
    Follows aenv cfg name key old
      (Run.run (step cfg.env aenv d.fields) s (eventsOf cfg name d key c)) (save cfg c w).2 := by
  have hne : ∀ name' ∈ cfg.analyse, name' ≠ name → get_key cfg name' c.context ≠ key :=
    fun name' hmem hne hkey => hne (hapart name' hmem hkey)
  have hwhat : ∀ name' ∈ cfg.analyse, get_key cfg name' c.context ≠ key → ∀ s w,
      Follows aenv cfg name key old s w →
        Follows aenv cfg name key old s (saveWhat cfg c.context c.data w name') :=
    fun _ _ hne' _ _ hw => hw.saveWhat_of_ne aenv hne'
  have hwhen : ∀ name' ∈ cfg.analyse, get_key cfg name' c.context ≠ key → ∀ s w,
      Follows aenv cfg name key old s w →
        Follows aenv cfg name key old s (saveWhen cfg c.context c.data w name') :=
    fun _ _ hne' _ _ hw => hw.saveWhen_of_ne aenv hne'
  by_cases hkey : get_key cfg name c.context = key
  · -- each half of the stanza takes a step where it asks for the call
    have hrun : ∀ (p : Prop) [Decidable p] (s : State) (e : Event),
        Run.run (step cfg.env aenv d.fields) s (if p then [e] else [])
          = if p then step cfg.env aenv d.fields s e else s := by
      intro p _ s e
      split_ifs <;> rfl
    rw [eventsOf, if_pos hkey, Run.run_append, hrun, hrun]
    refine Follows.foldl_find aenv hd (fun n hn hne' => hwhen n hn (hne n hn hne'))
      (fun w hw => hw.saveWhen_self aenv hd hkey) ?_
    exact Follows.foldl_find aenv hd (fun n hn hne' => hwhat n hn (hne n hn hne'))
      (fun w hw => hw.saveWhat_self aenv hd hkey) h
  · -- the call is for another key
    have hother : ∀ name' ∈ cfg.analyse, get_key cfg name' c.context ≠ key := by
      intro name' hmem hkey'
      exact hkey (hapart name' hmem hkey' ▸ hkey')
    have hmem : ∀ half k, ∀ x ∈ find cfg half k, x ∈ cfg.analyse := by
      intro half k x hx
      obtain ⟨d', hd', -⟩ := mem_find.mp hx
      exact Dict.mem_iff_lookup.mpr ⟨d', hd'⟩
    rw [eventsOf, if_neg hkey]
    refine List.foldlRecOn _ _ (List.foldlRecOn _ _ h (fun w hw x hx => ?_)) (fun w hw x hx => ?_)
    · exact hwhat x (hmem _ _ x hx) (hother x (hmem _ _ x hx)) s w hw
    · exact hwhen x (hmem _ _ x hx) (hother x (hmem _ _ x hx)) s w hw

theorem Follows.saves {cs : List SaveCall} {s : State} {w : Worker}
    (h : Follows aenv cfg name key old s w) (hd : cfg.analyse.lookup name = some d)
    (hapart : ∀ c ∈ cs, Apart cfg name key c) :
    Follows aenv cfg name key old
      (Run.run (step cfg.env aenv d.fields) s (cs.flatMap (eventsOf cfg name d key)))
      (cs.foldl (fun w c => (AnalyseWorker.save cfg c w).2) w) := by
  induction cs generalizing s w with
  | nil => exact h
  | cons c cs ih =>
    rw [List.flatMap_cons, Run.run_append, List.foldl_cons]
    exact ih (h.save aenv hd (hapart c List.mem_cons_self))
      (fun c' hc' => hapart c' (List.mem_cons_of_mem c hc'))

/-- An input is a run of its items. -/
theorem Follows.step {s : State} {w : Worker} {i : Input} (h : Follows aenv cfg name key old s w)
    (hd : cfg.analyse.lookup name = some d) (hapart : i.Apart cfg name key) :
    Follows aenv cfg name key old
      (Run.run (step cfg.env aenv d.fields) s (i.events cfg name d key)) (Worker.step cfg w i) := by
  cases i with
  | message msg =>
    show Follows aenv cfg name key old _ (handle cfg w msg)
    rw [handle_eq]
    exact h.saves aenv hd hapart
  | lose key' => exact ⟨(AList.lookup_erase_ne (Ne.symm hapart)).trans h.1, h.2⟩

/-- **One key.**  A run of the worker does with a key what a run of the stanza does with its
items. -/
theorem Follows.run {inputs : List Input} {s : State} {w : Worker}
    (h : Follows aenv cfg name key old s w) (hd : cfg.analyse.lookup name = some d)
    (hapart : ∀ i ∈ inputs, i.Apart cfg name key) :
    Follows aenv cfg name key old
      (Run.run (AnalyseWorker.step cfg.env aenv d.fields) s
        (inputs.flatMap (Input.events cfg name d key)))
      (Run.run (Worker.step cfg) w inputs) := by
  induction inputs generalizing s w with
  | nil => exact h
  | cons i inputs ih =>
    rw [List.flatMap_cons, Run.run_append, Run.run_cons]
    exact ih (h.step aenv hd (hapart i List.mem_cons_self))
      (fun i' hi' => hapart i' (List.mem_cons_of_mem i hi'))

end key

/-! ## Observations that are compared -/

section steady

variable (env : Env) (aenv : AlertWorkerManager.Env) (d : Stanza)

/-- The context stays one that the stanza is about, and what is observed can be compared, and is
not mistaken. -/
def Steady : Event → Prop
  | .what merged => ∀ v, merged.lookup d.what.1 = some v →
      Driver.truthy v = true ∧ env.search d.what.2 v.toText = true
  | .when data => ∀ value, data.lookup d.name = some value →
      readable value = true ∧ d.test.converts env value = true ∧ d.test.Unmistaken env value

theorem ordinary_of_steady {s : State} {e : Event} (hs : Remembers env d s) (h : Steady env d e) :
    Ordinary env aenv d s e ∧ Decided env d s e := by
  obtain ⟨last_state, last_value, hkey, hread, -⟩ := hs
  cases e with
  | what merged =>
    refine ⟨⟨?_, fun v hv => absurd hv List.not_mem_nil⟩, trivial⟩
    show (process_what env d s.key merged).isSome
    unfold process_what
    cases hv : merged.lookup d.what.1 with
    | none => rw [hkey]; rfl
    | some v => rw [hkey]; simp [h v hv]
  | when data =>
    cases hvalue : data.lookup d.name with
    | none =>
      refine ⟨⟨?_, fun v hv => ?_⟩, fun value h' => ?_⟩
      · show (observe env aenv d s data).key.isSome
        rw [observe_of_none env aenv d hvalue, hkey]
        rfl
      · rw [Event.values, hvalue] at hv
        exact absurd hv List.not_mem_nil
      · rw [hvalue] at h'
        cases h'
    | some value =>
      obtain ⟨hreadable, hconv, hright⟩ := h value hvalue
      obtain ⟨b, hstate, -⟩ := Test.state_of_converts env hconv
      refine ⟨⟨?_, fun v hv => ?_⟩, fun value' h' => ?_⟩
      · show (observe env aenv d s data).key.isSome
        rw [observe_of_state env aenv d hkey hread hvalue hstate]
        rfl
      · rw [Event.values, hvalue] at hv
        obtain rfl := List.mem_singleton.mp hv
        exact hreadable
      · obtain rfl : value = value' := Option.some.inj (hvalue.symm.trans h')
        rw [if_pos hconv]
        exact hright

theorem observed_step (s : State) (e : Event) :
    (step env aenv d s e).observed = s.observed ++ e.values d := by
  cases e with
  | what merged => exact (List.append_nil _).symm
  | when data =>
    show (observe env aenv d s data).observed = _
    cases hvalue : data.lookup d.name with
    | none => simp [observe, Event.values, hvalue]
    | some value => simp [observe, Event.values, hvalue]

/-- Steady items are observed, and their alerts are those of the lifecycle. -/
theorem run_steady {es : List Event} (h : ∀ e ∈ es, Steady env d e) :
    Classified env d (Run.run (step env aenv d) start es)
      ∧ (Run.run (step env aenv d) start es).observed = es.flatMap (Event.values d) := by
  have hrun : ∀ (es : List Event) (s : State), Remembers env d s → Classified env d s →
      (∀ e ∈ es, Steady env d e) → Classified env d (Run.run (step env aenv d) s es)
        ∧ (Run.run (step env aenv d) s es).observed
          = s.observed ++ es.flatMap (Event.values d) := by
    intro es
    induction es with
    | nil => exact fun s _ hclass _ => ⟨hclass, (List.append_nil _).symm⟩
    | cons e es ih =>
      intro s hs hclass hes
      obtain ⟨hord, hdec⟩ := ordinary_of_steady env aenv d hs (hes e List.mem_cons_self)
      obtain ⟨hlast, hobs⟩ := ih _ (remembers_step env aenv d hs hord hdec)
        ((classified_step_iff env aenv d hs hclass hord).mpr hdec)
        (fun e' he' => hes e' (List.mem_cons_of_mem e he'))
      refine ⟨hlast, hobs.trans ?_⟩
      rw [observed_step, List.flatMap_cons, List.append_assoc]
  exact hrun es start ⟨none, .none, rfl, rfl, rfl⟩ rfl h

end steady

/-! ## The alerts -/

section alerts

variable {cfg : Config} {aenv : AlertWorkerManager.Env} {name : String} {d : Directive}
  {key : String}

/-- **The alerts of published messages.**  From when the key of a stanza and context was created,
the alerts that are put into the queue for it are those of the lifecycle of its observations, in
the messages for whole groups. -/
theorem tasks_delivered (broker : Broker) {w : Worker} {inputs : List Input}
    (hd : cfg.analyse.lookup name = some d) (hmetric : (metric name).isSome)
    (hcreated : w.cells.lookup key = some (none, .none))
    (hkinds : ∀ name d, cfg.analyse.lookup name = some d → d.what.Plain ∧ d.when.Plain)
    (hpub : ∀ msg, .message msg ∈ inputs → Published msg ∧ Unambiguous msg)
    (hapart : ∀ i ∈ inputs, i.Apart cfg name key)
    (hsteady : ∀ i ∈ inputs, ∀ e ∈ i.events cfg name d key, Steady cfg.env d.fields e) :
    ∃ new, tasksUnder cfg key (Run.run (Worker.step cfg) w (inputs.filter (delivered cfg broker)))
        = tasksUnder cfg key w ++ new
      ∧ (∀ t ∈ new, t.condition = d)
      ∧ new.flatMap (fun t => phases aenv t.report.data)
        = (lifecycle false ((((inputs.filter Input.isWhole).flatMap
          (Input.events cfg name d key)).flatMap (Event.values d.fields)).map
            (fun v => d.fields.test.satisfied cfg.env v))).flatten := by
  rw [run_delivered_whole broker hkinds hpub]
  have hsub : ∀ i ∈ inputs.filter Input.isWhole, i ∈ inputs := fun i hi => (List.mem_filter.mp hi).1
  have hstart : Follows aenv cfg name key (alertsUnder cfg key w) start w :=
    ⟨hcreated, [], (List.append_nil _).symm, fun a ha => absurd ha List.not_mem_nil, rfl⟩
  obtain ⟨-, new, hnew, hname, hphases⟩ :=
    hstart.run aenv hd (fun i hi => hapart i (hsub i hi))
  have hevents : ∀ e ∈ (inputs.filter Input.isWhole).flatMap (Input.events cfg name d key),
      Steady cfg.env d.fields e := by
    intro e he
    obtain ⟨i, hi, he⟩ := List.mem_flatMap.mp he
    exact hsteady i (hsub i hi) e he
  obtain ⟨hclass, hobs⟩ := run_steady cfg.env aenv d.fields hevents
  obtain ⟨m, hm⟩ := Option.isSome_iff_exists.mp hmetric
  have htask : ∀ a ∈ new, process_alert cfg a
      = some ⟨AList.insert "metric" (.str m) a.context, d, a.report⟩ := by
    intro a ha
    unfold process_alert
    rw [hname a ha, hd, hm]
    rfl
  have htasks : new.filterMap (process_alert cfg)
      = new.map (fun a => ⟨AList.insert "metric" (.str m) a.context, d, a.report⟩) := by
    rw [← List.filterMap_eq_map]
    exact List.filterMap_congr htask
  refine ⟨new.filterMap (process_alert cfg), ?_, ?_, ?_⟩
  · rw [tasksUnder, hnew, List.filterMap_append, tasksUnder]
  · rw [htasks]
    intro t ht
    obtain ⟨a, -, rfl⟩ := List.mem_map.mp ht
    rfl
  · rw [htasks, List.flatMap_map]
    refine hphases.trans ?_
    rw [show _ = lifecycle false _ from hclass, State.history, hobs]

end alerts

/-! ### Pings -/

/-- The key of the device was created, and the device does not answer, twice, and answers. -/
def pingWorker : Worker where
  cells := Dict.ofList [("pt:ana-g:devices.unreachable:swh-b050.slac", (none, .none))]

def pingInputs : List Input :=
  [.message (pingMessage "ping" 100), .lose "pt:ana-g:devices.unreachable:rtr-core",
    .message (pingMessage "ping@vlan=3" 0), .message (pingMessage "ping" 100),
    .message (pingMessage "ping" 0)]

theorem calls_pingMessage {group : String} (hgroup : group ∈ ["ping", "ping@vlan=3"]) (n : ℤ) :
    ∃ indexes context, calls pingConfig (pingMessage group n)
        = [⟨.int 100, ⟨"ping", "reachability", indexes, {}⟩, context,
          Dict.ofList [("loss", .int n)], none⟩] ∧ context.lookup "device" = some (.str "swh-b050.slac") := by
  rcases List.mem_cons.mp hgroup with rfl | hgroup
  · exact ⟨["device"], Dict.ofList [("device", .str "swh-b050.slac")], rfl, rfl⟩
  · obtain rfl := List.mem_singleton.mp hgroup
    exact ⟨["device", "vlan"], Dict.ofList [("device", .str "swh-b050.slac"), ("vlan", .int 3)],
      rfl, rfl⟩

theorem steady_pingMessage {group : String} (hgroup : group ∈ ["ping", "ping@vlan=3"]) (n : ℤ) :
    ∀ e ∈ Input.events pingConfig "devices.unreachable" unreachable
      "pt:ana-g:devices.unreachable:swh-b050.slac" (.message (pingMessage group n)),
      Steady intEnv unreachable.fields e := by
  obtain ⟨indexes, context, hcalls, hcontext⟩ := calls_pingMessage hgroup n
  intro e he
  have hasked : ∀ k : Kind, k = ⟨"reachability", "ping"⟩ →
      unreachable.what = k ∧ unreachable.when = k :=
    fun k hk => hk ▸ ⟨rfl, rfl⟩
  rw [Input.events, hcalls, List.flatMap_singleton, eventsOf, if_pos (hasked _ rfl).1,
    if_pos (hasked _ rfl).2] at he
  split_ifs at he
  · have hboth : e ∈ [Event.what (Dict.overlay (Dict.ofList [("loss", .int n)]) context),
      .when (Dict.ofList [("loss", .int n)])] := he
    rcases List.mem_cons.mp hboth with rfl | he
    · intro v hv
      have hdevice : v = .str "swh-b050.slac" := by
        simpa [Dict.lookup_overlay, hcontext, unreachable, lossStanza, eq_comm] using hv
      subst hdevice
      exact ⟨by decide, rfl⟩
    · obtain rfl := List.mem_singleton.mp he
      intro v hv
      cases (show some (Value.int n) = some v from hv)
      exact ⟨rfl, rfl, trivial⟩
  · cases he

theorem tasks_delivered_pings : ∃ new : List Task,
    tasksUnder pingConfig "pt:ana-g:devices.unreachable:swh-b050.slac" (Run.run
        (Worker.step pingConfig) pingWorker (pingInputs.filter (delivered pingConfig topicBroker)))
      = tasksUnder pingConfig "pt:ana-g:devices.unreachable:swh-b050.slac" pingWorker ++ new
    ∧ (∀ t ∈ new, t.condition = unreachable)
    ∧ new.flatMap (fun t => phases AlertWorkerManager.prefixEnv t.report.data)
      = [.new_alert, .continual_alert, .end_alert] := by
  have hinputs : ∀ i ∈ pingInputs, i = .lose "pt:ana-g:devices.unreachable:rtr-core" ∨
      ∃ group ∈ ["ping", "ping@vlan=3"], ∃ n, i = .message (pingMessage group n) := by
    simp [pingInputs]
  refine @tasks_delivered pingConfig AlertWorkerManager.prefixEnv "devices.unreachable" unreachable
    "pt:ana-g:devices.unreachable:swh-b050.slac" topicBroker pingWorker pingInputs rfl (by decide)
    rfl (fun name d hd => ?_) (fun msg hmsg => ?_) (fun i hi => ?_) (fun i hi => ?_)
  · obtain rfl := plain_unreachable hd
    constructor <;> decide
  · rcases hinputs _ hmsg with h | ⟨group, hgroup, n, h⟩
    · cases h
    · cases h
      exact ⟨published_pingMessage group n, unambiguous_pingMessage hgroup n⟩
  · rcases hinputs i hi with rfl | ⟨group, -, n, rfl⟩
    · exact (by decide : "pt:ana-g:devices.unreachable:rtr-core"
        ≠ "pt:ana-g:devices.unreachable:swh-b050.slac")
    · intro c _ name' hname' _
      exact List.mem_singleton.mp (AList.mem_keys.mp hname')
  · rcases hinputs i hi with rfl | ⟨group, hgroup, n, rfl⟩
    · exact fun e he => absurd he List.not_mem_nil
    · exact steady_pingMessage hgroup n

end AnalyseWorker
