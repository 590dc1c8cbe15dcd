/-
# From the pollers to the stores

`poll` yields a message with the records of each group, and every storage daemon takes
the messages apart again: the device, the value in the name of a sub-group and the key
fields of a record become its context, the other fields its data.

`delivered` follows the records of a device the whole way: for a driver without
functions, what is handed to `save` is what each group contributes by itself, each
record once and with all its fields.
-/
import Ptolemy.Poll
import Ptolemy.PostRecords
import Ptolemy.FeederConservation

open Driver (Record Ref World Posts values contribution postMaps WithoutFunctions)
open Feeder (subGroup bareGroup baseContext reserved Conserves Faithful IsItemContext processTask)

namespace Delivery

/-! ## The messages that are sent -/

/-- The message of a poll, as it reaches a storage daemon. -/
def sent (m : Poll.Message) : Message where
  _meta := some { group := some m.group, spec := some m.spec, keyName := some (.many m.keyName),
                  type := some m.type, key := some m.key }
  context := some m.context
  data := some (.list m.data)
  timestamp := some (.int m.timestamp)

/-- The name of the group can be taken apart, and no key is called like an entry of a
message. -/
structure Deliverable (m : Poll.Message) : Prop where
  group_form : '@' ∈ m.group.toList → (subGroup m.group).isSome
  keyNames_plain : ∀ k ∈ m.keyName, k ∈ m.context ∨ k ∉ reserved
  subGroup_plain : ∀ k v, subGroup m.group = some (k, v) → k ∉ reserved

/-- A record of a message is saved: with the time, the spec and the group of the message, and its
fields are split between context and data. -/
structure SavedAs (m : Poll.Message) (record : Record) (call : SaveCall) : Prop where
  time : call.time = .int m.timestamp
  spec : call.meta'.spec = m.spec
  group : call.meta'.group = bareGroup m.group
  conserves : Conserves (baseContext m.context m.group) (fun k => k ∈ m.keyName) record call

theorem wellFormed_sent {m : Poll.Message} (h : Deliverable m) :
    Feeder.WellFormed (sent m)
      { group := some m.group, spec := some m.spec, keyName := some (.many m.keyName),
        type := some m.type, key := some m.key }
      m.group m.spec m.context (.int m.timestamp) (.list m.data) m.data where
  extractable :=
    { meta_eq := rfl
      group_eq := rfl
      spec_eq := rfl
      context_eq := rfl
      timestamp_eq := rfl
      data_eq := rfl
      items_eq := rfl
      group_form := h.group_form
      keyNames_plain := h.keyNames_plain
      subGroup_plain := h.subGroup_plain }
  keyNames_fresh := by
    intro k hk
    refine (h.keyNames_plain k hk).imp_right (fun hplain => ?_)
    -- a message of a poll has no other entries
    simp only [reserved, List.mem_cons, List.not_mem_nil, or_false, not_or] at hplain
    obtain ⟨h₁, h₂, h₃, h₄⟩ := hplain
    unfold Message.has
    rw [if_neg h₁, if_neg h₂, if_neg h₃, if_neg h₄]
    exact decide_eq_false (AList.notMem_empty k)

section Daemon

variable {κ σ ρ : Type} [DecidableEq κ] (kv : Context → κ) (o : IterOrder) (ttd : Bool)
  (b : Backend σ ρ)

/-- The daemon takes the messages as they come; one that raises is left behind. -/
def storeAll : List Message → σ → σ
  | [], s => s
  | this :: rest, s => storeAll rest (match processTask kv o ttd b.hooks this s with
    | .ok p => p.2
    | .error _ => s)

variable {kv o ttd b}

/-- One message. -/
theorem processTask_sent (hpre : ∀ t m c d s, (b.preBulkProcess t m c d s).1 = .ok true)
    {m : Poll.Message} (h : Deliverable m)
    (hkv : Faithful kv (IsItemContext (baseContext m.context m.group) m.data))
    (log : List SaveCall) (s : σ) :
    ∃ out s' new calls, processTask kv o ttd b.recorded.hooks (sent m) (log, s)
        = .ok (out, (log ++ new, s'))
      ∧ List.Forall₂ (SavedAs m) m.data calls ∧ new.Perm calls := by
  have hwf := wellFormed_sent h
  have hsame := Feeder.baseContext_congr (Feeder.gatheredContext_same hwf) m.group
  obtain ⟨m', contexts, hext, ⟨hgroup, hspec, -, -⟩, hcalls⟩ :=
    Feeder.extract_extractable kv o ttd hwf.extractable (fun _ => rfl)
      (fun c c' hc hc' => hkv c c' (hc.congr hsame) (hc'.congr hsame))
  obtain ⟨calls, hforall, hperm, -⟩ := hcalls none
  obtain ⟨out, s', hrun⟩ :=
    Feeder.runContexts_recorded b hpre (.int m.timestamp) m' none contexts log s
  refine ⟨out, s', Feeder.callsOf (.int m.timestamp) m' none contexts, calls, ?_, ?_, hperm⟩
  · rw [Feeder.processTask_of_extract b.recorded.hooks rfl rfl hext, hrun]
  · refine hforall.imp (fun i call hcall => ?_)
    obtain ⟨htime, hmeta, hconserves⟩ := hcall
    exact ⟨htime, hmeta ▸ hspec, hmeta ▸ hgroup, hconserves.congr hsame⟩

variable (o ttd) in
/-- The messages one after the other: each record is saved once. -/
theorem storeAll_sent (hpre : ∀ t m c d s, (b.preBulkProcess t m c d s).1 = .ok true)
    {ms : List Poll.Message} (h : ∀ m ∈ ms, Deliverable m)
    (hkv : ∀ m ∈ ms, Faithful kv (IsItemContext (baseContext m.context m.group) m.data))
    (log : List SaveCall) (s : σ) :
    ∃ s' new calls, storeAll kv o ttd b.recorded (ms.map sent) (log, s) = (log ++ new, s')
      ∧ List.Forall₂ (fun m cs => List.Forall₂ (SavedAs m) m.data cs) ms calls
      ∧ new.Perm calls.flatten := by
  induction ms generalizing log s with
  | nil => exact ⟨s, [], [], by rw [List.append_nil]; rfl, .nil, .nil⟩
  | cons m ms ih =>
    obtain ⟨out, s₁, new₁, calls₁, hrun, hcalls₁, hperm₁⟩ := processTask_sent hpre
      (h m List.mem_cons_self) (hkv m List.mem_cons_self) log s
    obtain ⟨s₂, new₂, calls₂, hstore, hcalls₂, hperm₂⟩ := ih
      (fun m' hm => h m' (List.mem_cons_of_mem m hm))
      (fun m' hm => hkv m' (List.mem_cons_of_mem m hm)) (log ++ new₁) s₁
    refine ⟨s₂, new₁ ++ new₂, calls₁ :: calls₂, ?_, .cons hcalls₁ hcalls₂, ?_⟩
    · rw [List.map_cons, storeAll, hrun, ← List.append_assoc]
      exact hstore
    · exact hperm₁.append hperm₂

end Daemon

/-! ## The messages of a result -/

section Result

variable (job : Poll.Job) (f : Poll.Fetched)

/-- The group under which `poll` looks up the keys of a group. -/
def thisGroup (g : String) : String := if g ∈ f.keys then g else (Text.partition '@' g).1

/-- The key fields that the message of a group names. -/
def keysOf (g : String) : List String :=
  Poll.theseKeys ((f.keys.lookup (thisGroup f g)).getD none)
    ((f.additionalKeys.lookup (thisGroup f g)).getD none)

/-- The context of the message of a group: the device, and the forced keys without a value. -/
def contextOf (g : String) : Context :=
  (((f.forcedKeys.lookup g).getD none).getD []).foldl (fun c k => AList.insert k .none c)
    (AList.insert "device" (.str job.device) ∅)

/-- A group that `poll` has keys for, with a name that can be taken apart and key fields that are
not called like an entry of a message. -/
structure Plain (g : String) : Prop where
  keys : thisGroup f g ∈ f.keys
  additionalKeys : thisGroup f g ∈ f.additionalKeys
  group_form : '@' ∈ g.toList → (subGroup g).isSome
  keyNames_plain : ∀ k ∈ keysOf f g, k ∈ contextOf job f g ∨ k ∉ reserved
  subGroup_plain : ∀ k v, subGroup g = some (k, v) → k ∉ reserved

/-- A record of a group is saved: at the time of the poll, and its fields, the device, the forced
keys and the value in the name of the group are split between context and data. -/
structure RecordSaved (t : Int) (g : String) (record : Record) (call : SaveCall) : Prop where
  time : call.time = .int t
  spec : call.meta'.spec = job.spec
  group : call.meta'.group = bareGroup g
  conserves : Conserves (baseContext (contextOf job f g) g) (fun k => k ∈ keysOf f g) record call

variable {job f} {t : Int} {g : String} {data : List Record} {m : Poll.Message}

/-- The entries of the message of a group. -/
structure IsMessage (job : Poll.Job) (f : Poll.Fetched) (t : Int) (g : String)
    (data : List Record) (m : Poll.Message) : Prop where
  spec : m.spec = job.spec
  group : m.group = g
  keyName : m.keyName = keysOf f g
  context : m.context = contextOf job f g
  data : m.data = data
  timestamp : m.timestamp = t

theorem isMessage_of_ok (h : Poll.messageOf job t f g data = .ok m) :
    IsMessage job f t g data m := by
  have hkeys : ∀ {thisG key additional}, thisGroup f g = thisG → f.keys.lookup thisG = some key →
      f.additionalKeys.lookup thisG = some additional →
      Poll.theseKeys key additional = keysOf f g := by
    intro thisG key additional hthis hkey hadd
    rw [keysOf, hthis, hkey, hadd, Option.getD_some, Option.getD_some]
  unfold Poll.messageOf at h
  split_ifs at h with hg
  · obtain ⟨key, additional, hkey, hadd, rfl⟩ := Poll.messageAs_eq_ok.mp h
    exact ⟨rfl, rfl, hkeys (if_pos hg) hkey hadd, rfl, rfl, rfl⟩
  · obtain ⟨key, additional, hkey, hadd, rfl⟩ := Poll.messageAs_eq_ok.mp h
    exact ⟨rfl, rfl, hkeys (if_neg hg) hkey hadd, rfl, rfl, rfl⟩

theorem messageOf_of_plain (h : Plain job f g) : ∃ m, Poll.messageOf job t f g data = .ok m := by
  obtain ⟨key, hkey⟩ := Dict.mem_iff_lookup.mp h.keys
  obtain ⟨additional, hadd⟩ := Dict.mem_iff_lookup.mp h.additionalKeys
  unfold Poll.messageOf
  unfold thisGroup at hkey hadd
  split_ifs with hg
  · rw [if_pos hg] at hkey hadd
    exact ⟨_, Poll.messageAs_eq_ok.mpr ⟨key, additional, hkey, hadd, rfl⟩⟩
  · rw [if_neg hg] at hkey hadd
    exact ⟨_, Poll.messageAs_eq_ok.mpr ⟨key, additional, hkey, hadd, rfl⟩⟩

theorem IsMessage.deliverable (h : IsMessage job f t g data m) (hg : Plain job f g) :
    Deliverable m where
  group_form := by
    rw [h.group]
    exact hg.group_form
  keyNames_plain := by
    rw [h.keyName, h.context]
    exact hg.keyNames_plain
  subGroup_plain := by
    rw [h.group]
    exact hg.subGroup_plain

theorem IsMessage.recordSaved (h : IsMessage job f t g data m) {record : Record}
    {call : SaveCall} (hs : SavedAs m record call) : RecordSaved job f t g record call where
  time := by rw [hs.time, h.timestamp]
  spec := by rw [hs.spec, h.spec]
  group := by rw [hs.group, h.group]
  conserves := by
    have hc := hs.conserves
    rwa [h.context, h.group, h.keyName] at hc

/-- The records of the groups, each beside its group. -/
def rows (ps : List (String × List Record)) : List (String × Record) :=
  ps.flatMap (fun p => p.2.map (fun r => (p.1, r)))

/-- The records of the messages are those of the groups. -/
theorem forall₂_rows {ps : List (String × List Record)} {ms : List Poll.Message}
    (h : List.Forall₂ (fun p m => Poll.messageOf job t f p.1 p.2 = .ok m) ps ms)
    {calls : List (List SaveCall)}
    (hcalls : List.Forall₂ (fun m cs => List.Forall₂ (SavedAs m) m.data cs) ms calls) :
    List.Forall₂ (fun p call => RecordSaved job f t p.1 p.2 call) (rows ps) calls.flatten := by
  induction h generalizing calls with
  | nil =>
    cases hcalls
    exact .nil
  | @cons p m ps ms hok _ ih =>
    cases hcalls with
    | @cons _ cs _ calls hcs hrest =>
      have hm := isMessage_of_ok hok
      rw [hm.data] at hcs
      rw [rows, List.flatMap_cons, List.flatten_cons]
      refine List.rel_append ?_ (ih hrest)
      exact List.forall₂_map_left_iff.mpr (hcs.imp (fun r call hs => hm.recordSaved hs))

end Result

/-! ## The groups of a result -/

/-- The groups that are marked to be cleaned. -/
def cleaned (drv : Poll.PollDriver) (g : String) : Bool := ((drv.groups.lookup g).getD {}).clean

/-- What post-processing has yielded, without the groups that are cleaned. -/
def yielded (drv : Poll.PollDriver) (vs : List (Option (String × Record))) :
    List (String × Record) :=
  (vs.filterMap id).filter (fun p => !cleaned drv p.1)

theorem recordsOf_values (s : Driver.State) (g : String) :
    (s.recordsOf g).map (fun r => (g, r))
      = ((values s.world s.results).filterMap id).filter (fun p => decide (p.1 = g)) := by
  rw [Driver.recordsOf_eq]
  generalize values s.world s.results = vs
  induction vs with
  | nil => rfl
  | cons v vs ih =>
    cases v with
    | none => exact ih
    | some p =>
      obtain ⟨thisG, r⟩ := p
      by_cases hg : thisG = g
      · subst hg
        simpa using ih
      · simpa [hg] using ih

theorem mem_resultOf {s : Driver.State} {g : String} {rs : List Record}
    (h : (Poll.resultOf s).lookup g = some rs) : rs = s.recordsOf g := by
  unfold Poll.resultOf Dict.ofList at h
  rcases Dict.lookup_foldl_insert_cases
    ((s.results.filterMap (fun y => y.map Prod.fst)).map (fun g => (g, s.recordsOf g))) ∅ g with
    ⟨v, hv, hlook⟩ | ⟨-, hlook⟩
  · rw [hlook] at h
    obtain ⟨g', -, hg'⟩ := List.mem_map.mp hv
    cases hg'
    exact (Option.some.inj h).symm
  · rw [hlook, AList.lookup_empty] at h
    cases h

theorem mem_resultOf_of_yielded {s : Driver.State} {p : String × Record}
    (h : p ∈ (values s.world s.results).filterMap id) : p.1 ∈ Poll.resultOf s := by
  obtain ⟨v, hv, hp⟩ := List.mem_filterMap.mp h
  obtain ⟨y, hy, rfl⟩ := List.mem_map.mp hv
  have hp' : Option.map (fun q : String × Ref => (q.1, s.world.records q.2)) y = some p := hp
  obtain ⟨q, rfl, rfl⟩ := Option.map_eq_some_iff.mp hp'
  have hmem : (q.1, s.recordsOf q.1)
      ∈ (s.results.filterMap (fun y => y.map Prod.fst)).map (fun g => (g, s.recordsOf g)) :=
    List.mem_map.mpr ⟨q.1, List.mem_filterMap.mpr ⟨some q, hy, rfl⟩, rfl⟩
  unfold Poll.resultOf Dict.ofList
  rcases Dict.lookup_foldl_insert_cases
    ((s.results.filterMap (fun y => y.map Prod.fst)).map (fun g => (g, s.recordsOf g))) ∅ q.1 with
    ⟨v, -, hlook⟩ | ⟨hnot, -⟩
  · exact Dict.mem_iff_lookup.mpr ⟨v, hlook⟩
  · exact absurd hmem (hnot _)

/-- The records of the result are those that post-processing has yielded. -/
theorem rows_perm (drv : Poll.PollDriver) (o : IterOrder) (s : Driver.State) :
    (rows (o.order ((Poll.resultOf s).restrict (fun g => !cleaned drv g)).items)).Perm
      (yielded drv (values s.world s.results)) := by
  have hone : ∀ p ∈ o.order ((Poll.resultOf s).restrict (fun g => !cleaned drv g)).items,
      p.2.map (fun r => (p.1, r))
        = (yielded drv (values s.world s.results)).filter (fun x => decide (x.1 = p.1)) := by
    intro p hp
    have hlook := Dict.mem_items.mp ((o.mem_order).mp hp)
    rw [Dict.lookup_restrict] at hlook
    split_ifs at hlook with hkeep
    rw [mem_resultOf hlook, recordsOf_values, yielded, List.filter_filter]
    refine List.filter_congr (fun x _ => ?_)
    by_cases hx : x.1 = p.1
    · rw [hx, hkeep, Bool.and_true]
    · rw [decide_eq_false hx, Bool.false_and]
  rw [rows, List.flatMap_congr hone,
    ← List.flatMap_map Prod.fst (fun g => (yielded drv (values s.world s.results)).filter
      (fun x => decide (x.1 = g)))]
  refine Dict.flatMap_filter_perm Prod.fst _ ?_ _ (fun x hx => ?_)
  · exact Dict.nodup_order_keys o _
  · obtain ⟨hmem, hkeep⟩ := List.mem_filter.mp hx
    rw [Dict.mem_order_keys, Dict.mem_restrict]
    exact ⟨hkeep, mem_resultOf_of_yielded hmem⟩

/-! ## Delivery -/

section Delivered

variable {κ σ ρ : Type} [DecidableEq κ] {kv : Context → κ} {o : IterOrder} {ttd : Bool}
  {b : Backend σ ρ} {job : Poll.Job} {f : Poll.Fetched} {t : Int}

variable (o ttd t) in
/-- The records of a result are saved, each once. -/
theorem saved_rows (hpre : ∀ t m c d s, (b.preBulkProcess t m c d s).1 = .ok true)
    {ps : List (String × List Record)} (hplain : ∀ p ∈ ps, Plain job f p.1)
    (hkv : ∀ p ∈ ps, Faithful kv (IsItemContext (baseContext (contextOf job f p.1) p.1) p.2))
    (log : List SaveCall) (s : σ) :
    (Poll.messages job t f ps).2 = none
      ∧ ∃ s' new calls, storeAll kv o ttd b.recorded ((Poll.messages job t f ps).1.map sent)
            (log, s) = (log ++ new, s')
        ∧ List.Forall₂ (fun p call => RecordSaved job f t p.1 p.2 call) (rows ps) calls
        ∧ new.Perm calls := by
  have hended : (Poll.messages job t f ps).2 = none :=
    Poll.messages_of_ok (fun p hp => messageOf_of_plain (hplain p hp))
  have hall := Poll.messages_ended hended
  have hmessage : ∀ m ∈ (Poll.messages job t f ps).1, ∃ p ∈ ps, IsMessage job f t p.1 p.2 m := by
    intro m hm
    obtain ⟨p, hp, hok⟩ := exists_of_forall₂ hall hm
    exact ⟨p, hp, isMessage_of_ok hok⟩
  obtain ⟨s', new, calls, hstore, hcalls, hperm⟩ := storeAll_sent o ttd hpre
    (fun m hm => by
      obtain ⟨p, hp, his⟩ := hmessage m hm
      exact his.deliverable (hplain p hp))
    (fun m hm => by
      obtain ⟨p, hp, his⟩ := hmessage m hm
      rw [his.context, his.group, his.data]
      exact hkv p hp) log s
  exact ⟨hended, s', new, calls.flatten, hstore, forall₂_rows hall hcalls, hperm⟩

/-- **From the poll to the stores.**  For a driver without functions, and an order in which every
group finds the records that it reads as they were collected, `poll` raises nothing, and what the
storage daemon hands to `save` is what each group contributes by itself: each record once. -/
theorem delivered {env : Driver.Env} {drv : Poll.PollDriver} {visit : IterOrder} {w : World}
    {c : Poll.Collected}
    (hsep : Driver.Separate { w with data := (Poll._fetch env drv c).res })
    (hfun : ∀ g, ∀ m ∈ postMaps drv.posts g, WithoutFunctions m)
    (hfresh : Driver.FreshOrder env drv.posts (Poll._fetch env drv c).keys
      { w with data := (Poll._fetch env drv c).res } visit)
    (hfetch : Poll.fetch env drv visit w c = .ok f)
    (hplain : ∀ g ∈ f.res, Plain job f g)
    (hkv : ∀ g data, f.res.lookup g = some data →
      Faithful kv (IsItemContext (baseContext (contextOf job f g) g) data))
    (hpre : ∀ t m c d s, (b.preBulkProcess t m c d s).1 = .ok true) (o' : IterOrder) (s : σ) :
    ∃ (ls : List (List (Option (String × Record)))) (s' : σ) (log calls : List SaveCall),
      (visit.order ((Poll._fetch env drv c).res.items.map Prod.fst)).map
          (contribution env drv.posts (Poll._fetch env drv c).keys
            { w with data := (Poll._fetch env drv c).res }) = ls.map Except.ok
      ∧ (Poll.messages job t f (o'.order f.res.items)).2 = none
      ∧ storeAll kv o ttd b.recorded
          ((Poll.messages job t f (o'.order f.res.items)).1.map sent) ([], s) = (log, s')
      ∧ List.Forall₂ (fun p call => RecordSaved job f t p.1 p.2 call) (yielded drv ls.flatten) calls
      ∧ log.Perm calls := by
  unfold Poll.fetch at hfetch
  obtain ⟨u, hpost, hrest⟩ := Except.bind_eq_ok.mp hfetch
  split_ifs at hrest
  -- every group contributes what it would contribute as the first one
  obtain ⟨u', ls, hu', hls, hvalues⟩ | ⟨⟨e, he⟩, -⟩ :=
    (Driver.rest_start { w with data := (Poll._fetch env drv c).res } _).foldlM hsep hfun
      (Driver.nodup_visit visit _) hfresh
  · have huu : u' = u := Except.ok.inj (hu'.symm.trans hpost)
    rw [huu] at hvalues
    have hres : f.res = (Poll.resultOf u).restrict (fun g => !cleaned drv g) := by
      cases hrest
      rfl
    have hmem : ∀ p ∈ o'.order f.res.items, p.1 ∈ f.res ∧ f.res.lookup p.1 = some p.2 := by
      intro p hp
      have hlook := Dict.mem_items.mp ((o'.mem_order).mp hp)
      exact ⟨Dict.mem_iff_lookup.mpr ⟨_, hlook⟩, hlook⟩
    obtain ⟨hended, s', log, calls, hstore, hcalls, hperm⟩ :=
      saved_rows o ttd t hpre (fun p hp => hplain p.1 (hmem p hp).1)
      (fun p hp => hkv p.1 p.2 (hmem p hp).2) [] s
    have hrows : (yielded drv ls.flatten).Perm (rows (o'.order f.res.items)) := by
      have hall : values u.world u.results = ls.flatten := hvalues
      rw [← hall, hres]
      exact (rows_perm drv o' u).symm
    obtain ⟨calls', hcalls', hperm'⟩ := List.perm_comp_forall₂ hrows hcalls
    exact ⟨ls, s', log, calls', hls, hended, hstore, hcalls', hperm.trans hperm'.symm⟩
  · have hcontra : Driver.postRemap env drv.posts visit (Poll._fetch env drv c).keys
        { w with data := (Poll._fetch env drv c).res } = .error e := he
    rw [hcontra] at hpost
    cases hpost

end Delivered

/-! ## The stations of a switch -/

/-- The stations in sub-groups by their vlan, which is one of their keys. -/
def stationDriver : Poll.PollDriver where
  posts := Driver.stationPosts
  groups := Dict.ofList [("neighbour", { additionalKeyNames := some ["vlan"] })]

def stationsCollected : Poll.Collected where
  res := Driver.stationWorld.data

def stationRecord (mac : String) : Record :=
  Dict.ofList [("mac_address", .str mac), ("physical_port", .str "Gi1/1")]

def stationsFetched : Poll.Fetched where
  keys := Dict.ofList [("neighbour", some "mac_address")]
  additionalKeys := Dict.ofList [("neighbour", some ["vlan"])]
  forcedKeys := Dict.ofList [("neighbour", none)]
  res := Dict.ofList [("neighbour@vlan=13", [stationRecord "00:11:22:33:44:66"]),
    ("neighbour@vlan=12", [stationRecord "00:11:22:33:44:55"])]

theorem fetch_stations : Poll.fetch Driver.sampleEnv stationDriver .stored Driver.stationWorld
    stationsCollected = .ok stationsFetched := rfl

theorem mem_stationsFetched {g : String} {data : List Record}
    (h : stationsFetched.res.lookup g = some data) :
    (g = "neighbour@vlan=12" ∧ data = [stationRecord "00:11:22:33:44:55"])
      ∨ g = "neighbour@vlan=13" ∧ data = [stationRecord "00:11:22:33:44:66"] := by
  have hmem : (g, data) ∈ [("neighbour@vlan=12", [stationRecord "00:11:22:33:44:55"]),
      ("neighbour@vlan=13", [stationRecord "00:11:22:33:44:66"])] := Dict.mem_items.mpr h
  rcases List.mem_cons.mp hmem with heq | hmem
  · cases heq
    exact Or.inl ⟨rfl, rfl⟩
  · cases List.mem_singleton.mp hmem
    exact Or.inr ⟨rfl, rfl⟩

theorem plain_stations {g : String} (h : g ∈ stationsFetched.res) :
    Plain Poll.neighbourJob stationsFetched g := by
  obtain ⟨data, hdata⟩ := Dict.mem_iff_lookup.mp h
  rcases mem_stationsFetched hdata with ⟨rfl, -⟩ | ⟨rfl, -⟩
  · refine ⟨by decide, by decide, by decide, by decide, fun k v hkv => ?_⟩
    have hvlan : subGroup "neighbour@vlan=12" = some ("vlan", .int 12) := by decide
    rw [hvlan] at hkv
    cases hkv
    decide
  · refine ⟨by decide, by decide, by decide, by decide, fun k v hkv => ?_⟩
    have hvlan : subGroup "neighbour@vlan=13" = some ("vlan", .int 13) := by decide
    rw [hvlan] at hkv
    cases hkv
    decide

/-- Both stations are saved, although saving fails. -/
theorem delivered_stations :
    ∃ (ls : List (List (Option (String × Record)))) (s' : Unit) (log calls : List SaveCall),
      (IterOrder.stored.order ((Poll._fetch Driver.sampleEnv stationDriver
            stationsCollected).res.items.map Prod.fst)).map
          (contribution Driver.sampleEnv stationDriver.posts
            (Poll._fetch Driver.sampleEnv stationDriver stationsCollected).keys
            { Driver.stationWorld with data :=
                (Poll._fetch Driver.sampleEnv stationDriver stationsCollected).res })
        = ls.map Except.ok
      ∧ (Poll.messages Poll.neighbourJob 0 stationsFetched
          (IterOrder.reversed.order stationsFetched.res.items)).2 = none
      ∧ storeAll Feeder.dictToKv .reversed true Feeder.failingBackend.recorded
          ((Poll.messages Poll.neighbourJob 0 stationsFetched
            (IterOrder.reversed.order stationsFetched.res.items)).1.map sent) ([], ()) = (log, s')
      ∧ List.Forall₂ (fun p call => RecordSaved Poll.neighbourJob stationsFetched 0 p.1 p.2 call)
          (yielded stationDriver ls.flatten) calls
      ∧ log.Perm calls := by
  -- no group reads another one
  have hfresh : Driver.FreshOrder Driver.sampleEnv stationDriver.posts
      (Poll._fetch Driver.sampleEnv stationDriver stationsCollected).keys
      { Driver.stationWorld with data :=
          (Poll._fetch Driver.sampleEnv stationDriver stationsCollected).res } .stored :=
    ⟨fun s _ h _ hreads => absurd hreads (Driver.not_reads_of_perRecord
      (Driver.perRecord_stationPosts _).1 (Driver.perRecord_stationPosts _).2 h), trivial⟩
  refine delivered Driver.separate_stationWorld
    (fun g m hm => Driver.withoutFunctions_of_perRecord
      ((Driver.perRecord_stationPosts g).1 m hm))
    hfresh fetch_stations (fun g hg => plain_stations hg) (fun g data hdata => ?_)
    (fun _ _ _ _ _ => rfl) .reversed ()
  refine Feeder.faithful_dictToKv _ (fun _ hc => hc.exists_same) ?_
  rcases mem_stationsFetched hdata with ⟨rfl, rfl⟩ | ⟨rfl, rfl⟩
  · decide
  · decide

end Delivery
