/-
# The messages of the host watcher

`HostWatcher` passes on where hosts were seen.  A host that is seen on a port to another
switch is not connected there, and so its device and port are left out: the layer-1
worker keeps a key in the cache for each such port.  The watcher looks these keys up
for the ports of a batch, and compares them with each sighting again when it makes the
message.  A sighting with an address of its own is passed on twice, from the same
dictionary.

The change of case and `dict_to_kv` are parameters.  What the watcher keeps in its
sorted sets decides on its log only.
-/
import Ptolemy.PostRemap

namespace HostWatcher

/-- A sighting: its context and data together. -/
abbrev Sighting : Type := Dict String Value

/-- `lower()`, `upper()`, `dict_to_kv`, and the order in which dictionaries are gone through. -/
structure Env : Type 1 where
  lower : String → String
  upper : String → String
  dictToKv : Dict String Value → String
  order : IterOrder := IterOrder.stored

variable (env : Env)

/-! ## The ports of a batch -/

/-- The key of the layer-1 worker for a port. -/
def layer1Key (device port : String) : String := "pt:layer1:" ++ (device ++ ":" ++ port)

/-- It is meant to strip a subinterface, but it asks for a name that is not defined there, and the
exception is ignored. -/
def determine_physical_interface (interface : Value) : Value := interface

/-- The port of a sighting as `save` looks it up; nothing where it raises. -/
def portKey (d : Sighting) : Option String :=
  match d.lookup "physical_port", d.lookup "device" with
  | some port, some (.str device) =>
      some (env.lower device ++ ":" ++ (determine_physical_interface port).toText)
  | _, _ => none

/-- Whether a sighting has a value for a field that counts as true. -/
def present (d : Sighting) (k : String) : Bool := (d.lookup k).elim false Driver.truthy

/-- The sightings that `save` collects, from the contexts and data of a batch. -/
def combined (batch : List (Dict String Value × Dict String Value)) : List Sighting :=
  batch.map (fun p => Dict.overlay p.1 p.2)

/-- The ports to look up. -/
def thesePorts (ds : List Sighting) : List String :=
  ds.foldl (fun ps d => match portKey env d with
    | none => ps
    | some p => if p ∈ ps then ps else ps ++ [p]) []

/-- The ports that the cache has a key for. -/
def uplinksOf (cache : String → Bool) (ds : List Sighting) : List String :=
  (thesePorts env ds).filter (fun p => cache ("pt:layer1:" ++ p))

/-! ## Messages -/

structure Message : Type where
  context : Dict String Value := ∅
  data : Dict String Value := ∅

/-- The vlan that a port is named after, if any. -/
def vlanOf (port : String) : Option Int :=
  let v := ((Text.split '.' port).getLast?).getD ""
  Text.int? (if (env.upper v).startsWith "VL" then
    String.ofList (v.toList.filter (fun c => '0' ≤ c ∧ c ≤ '9')) else v)

/-- The vlan is set where there is none. -/
def withVlan (d : Sighting) : Sighting :=
  if "vlan" ∈ d then d
  else match d.lookup "physical_port" with
    | some (.str port) => match vlanOf env port with
      | some n => AList.insert "vlan" (.int n) d
      | none => d
    | _ => d

/-- The port with its subinterface meant to be left out. -/
def withPhysical (d : Sighting) : Sighting :=
  match d.lookup "physical_port" with
  | none => d
  | some port => AList.insert "physical_port" (determine_physical_interface port) d

/-- Whether the port is a vlan interface or a port channel. -/
def isVirtual (port : Value) : Bool :=
  (env.upper port.toText).startsWith "VL" || (env.upper port.toText).startsWith "PO"

/-- Whether a host is taken to be connected where it was seen. -/
def directlyConnected (uplinks : List String) (d : Sighting) : Bool :=
  decide ("ip_address" ∉ d)
    && (match d.lookup "physical_port" with
      | some port => !isVirtual env port
      | none => true)
    && (match d.lookup "device", d.lookup "physical_port" with
      | some device, some port => decide (device.toText ++ ":" ++ port.toText ∉ uplinks)
      | some _, none => false
      | none, _ => true)

/-- What `format_message` leaves of a sighting. -/
def strip (uplinks : List String) (d : Sighting) : Sighting :=
  let d := withPhysical (withVlan env d)
  let ignore := ["status", "type"]
    ++ if directlyConnected env uplinks d then [] else ["device", "physical_port"]
  ignore.foldl (fun d k => AList.erase k d) d

/-- `format_message`: the text by which messages are compared, and the message. -/
def format_message (d : Sighting) : String × Message :=
  let m := (env.order.order d.items).foldl (fun (m : Message) p =>
    if p.1 ∈ ["mac_address", "vlan"] then { m with context := AList.insert p.1 p.2 m.context }
    else { m with data := AList.insert p.1 p.2 m.data }) {}
  (env.dictToKv m.context ++ " " ++ env.dictToKv m.data, m)

/-! ## A batch -/

/-- A message with the sighting that it is for. -/
structure Emitted : Type where
  sighting : Sighting
  message : Message

/-- The messages of one pass, without those that have the text of an earlier one. -/
def emit : List String → List (Sighting × (String × Message)) → List Emitted
  | _, [] => []
  | dups, p :: ps =>
      if p.2.1 ∈ dups then emit dups ps
      else ⟨p.1, p.2.2⟩ :: emit (p.2.1 :: dups) ps

/-- `post_bulk_process` after the `save` of a batch: the macs, then the arps, which are the same
sightings as the first pass has left them. -/
def post_bulk_process (cache : String → Bool)
    (batch : List (Dict String Value × Dict String Value)) : List Emitted :=
  let ds := combined batch
  let uplinks := uplinksOf env cache ds
  let macs := ds.filter (fun d => present d "mac_address")
  let arps := macs.filter (fun d => present d "ip_address")
  emit [] (macs.map (fun d => (d, format_message env (strip env uplinks d))))
    ++ emit [] (arps.map (fun d =>
      (d, format_message env (strip env uplinks (strip env uplinks d)))))

/-! ## What a message says of the port -/

variable {env : Env}

theorem mem_foldl_thesePorts (ds : List Sighting) (ps : List String) (p : String) :
    p ∈ ds.foldl (fun ps d => match portKey env d with
      | none => ps
      | some p => if p ∈ ps then ps else ps ++ [p]) ps
      ↔ p ∈ ps ∨ ∃ d ∈ ds, portKey env d = some p := by
  induction ds generalizing ps with
  | nil => simp
  | cons d ds ih =>
    rw [List.foldl_cons, ih]
    cases hd : portKey env d with
    | none => simp [hd]
    | some q =>
      simp only
      split_ifs with hq
      · constructor
        · rintro (h | ⟨d', hd', h⟩)
          · exact Or.inl h
          · exact Or.inr ⟨d', List.mem_cons_of_mem d hd', h⟩
        · rintro (h | ⟨d', hd', h⟩)
          · exact Or.inl h
          · rcases List.mem_cons.mp hd' with rfl | hd'
            · rw [hd] at h
              cases h
              exact Or.inl hq
            · exact Or.inr ⟨d', hd', h⟩
      · rw [List.mem_append, List.mem_singleton]
        constructor
        · rintro ((h | rfl) | ⟨d', hd', h⟩)
          · exact Or.inl h
          · exact Or.inr ⟨d, List.mem_cons_self, hd⟩
          · exact Or.inr ⟨d', List.mem_cons_of_mem d hd', h⟩
        · rintro (h | ⟨d', hd', h⟩)
          · exact Or.inl (Or.inl h)
          · rcases List.mem_cons.mp hd' with rfl | hd'
            · rw [hd] at h
              cases h
              exact Or.inl (Or.inr rfl)
            · exact Or.inr ⟨d', hd', h⟩

/-- A port counts as an uplink where the cache has a key for it as a sighting of the batch has
looked it up. -/
theorem mem_uplinksOf {cache : String → Bool} {ds : List Sighting} {p : String} :
    p ∈ uplinksOf env cache ds
      ↔ cache ("pt:layer1:" ++ p) = true ∧ ∃ d ∈ ds, portKey env d = some p := by
  unfold uplinksOf thesePorts
  rw [List.mem_filter, mem_foldl_thesePorts, and_comm]
  simp only [List.not_mem_nil, false_or]

section strip

variable {uplinks : List String} {d : Sighting} {k : String}

theorem lookup_withVlan (hk : k ≠ "vlan") : (withVlan env d).lookup k = d.lookup k := by
  unfold withVlan
  split_ifs
  · rfl
  · split
    · split
      · exact AList.lookup_insert_ne hk
      · rfl
    · rfl

theorem lookup_withPhysical : (withPhysical d).lookup k = d.lookup k := by
  unfold withPhysical
  cases hport : d.lookup "physical_port" with
  | none => rfl
  | some port =>
    simp only [determine_physical_interface, Dict.lookup_insert_eq]
    split_ifs with hk
    · rw [hk, hport]
    · rfl

/-- What is taken for connected depends on the address, the device and the port alone. -/
theorem directlyConnected_congr {d' : Sighting}
    (h : ∀ k ∈ ["ip_address", "device", "physical_port"], d'.lookup k = d.lookup k) :
    directlyConnected env uplinks d' = directlyConnected env uplinks d := by
  have hip : ("ip_address" ∈ d') ↔ "ip_address" ∈ d := by
    rw [Dict.mem_iff_lookup, Dict.mem_iff_lookup, h _ (by simp)]
  unfold directlyConnected
  rw [h "device" (by simp), h "physical_port" (by simp)]
  simp only [hip]

/-- **A sighting keeps its device and port** where its host is taken to be connected there. -/
theorem lookup_strip (hk : k = "device" ∨ k = "physical_port") :
    (strip env uplinks d).lookup k
      = if directlyConnected env uplinks d then d.lookup k else none := by
  have hwith : ∀ k, k ≠ "vlan" → (withPhysical (withVlan env d)).lookup k = d.lookup k :=
    fun k hk => lookup_withPhysical.trans (lookup_withVlan hk)
  have hdirect : directlyConnected env uplinks (withPhysical (withVlan env d))
      = directlyConnected env uplinks d := by
    apply directlyConnected_congr
    intro k hk
    apply hwith
    rintro rfl
    exact absurd hk (by decide)
  unfold strip
  simp only [hdirect]
  cases directlyConnected env uplinks d with
  | true =>
    rcases hk with rfl | rfl
    · simp only [if_true, List.append_nil, List.foldl_cons, List.foldl_nil]
      rw [AList.lookup_erase_ne (by decide), AList.lookup_erase_ne (by decide), hwith _ (by decide)]
    · simp only [if_true, List.append_nil, List.foldl_cons, List.foldl_nil]
      rw [AList.lookup_erase_ne (by decide), AList.lookup_erase_ne (by decide), hwith _ (by decide)]
  | false =>
    simp only [Bool.false_eq_true, if_false, List.cons_append, List.nil_append, List.foldl_cons,
      List.foldl_nil]
    rcases hk with rfl | rfl
    · rw [AList.lookup_erase_ne (by decide), AList.lookup_erase]
    · rw [AList.lookup_erase]

/-- What is no context of a message is in its data. -/
theorem lookup_format_message (hk : k ∉ ["mac_address", "vlan"]) :
    (format_message env d).2.data.lookup k = d.lookup k := by
  unfold format_message
  simp only
  cases hd : d.lookup k with
  | some v =>
    refine foldl_set (fun m : Message => m.data.lookup k)
      (env.order.mem_order.mpr (Dict.mem_items.mpr hd)) (fun m => ?_) (fun m p hp hne => ?_) {}
    · rw [if_neg hk]
      exact AList.lookup_insert _
    · have hname : k ≠ p.1 := by
        intro heq
        have hlook := Dict.mem_items.mp (env.order.mem_order.mp hp)
        rw [← heq, hd] at hlook
        exact hne (Prod.ext heq.symm (Option.some.inj hlook).symm)
      split_ifs
      · rfl
      · exact AList.lookup_insert_ne hname
  | none =>
    refine foldl_keep (fun m : Message => m.data.lookup k) (fun m p hp => ?_) {}
    have hname : k ≠ p.1 := by
      intro heq
      have hlook := Dict.mem_items.mp (env.order.mem_order.mp hp)
      rw [← heq, hd] at hlook
      cases hlook
    split_ifs
    · rfl
    · exact AList.lookup_insert_ne hname

end strip

theorem mem_emit {dups : List String} {ps : List (Sighting × (String × Message))} {e : Emitted}
    (h : e ∈ emit dups ps) : ∃ p ∈ ps, e = ⟨p.1, p.2.2⟩ := by
  induction ps generalizing dups with
  | nil => cases h
  | cons p ps ih =>
    unfold emit at h
    split_ifs at h
    · obtain ⟨q, hq, he⟩ := ih h
      exact ⟨q, List.mem_cons_of_mem p hq, he⟩
    · rcases List.mem_cons.mp h with rfl | h
      · exact ⟨p, List.mem_cons_self, rfl⟩
      · obtain ⟨q, hq, he⟩ := ih h
        exact ⟨q, List.mem_cons_of_mem p hq, he⟩

/-! ## Uplinks -/

/-- A port without its subinterface. -/
def withoutSubinterface (port : String) : String := (Text.partition '.' port).1

/-- The cache holds a key for a port of a device to another switch. -/
def KnownPeer (env : Env) (cache : String → Bool) (device port : String) : Prop :=
  cache (layer1Key (env.lower device) (withoutSubinterface port)) = true

/-- The port of a sighting was looked up as it stands, and found. -/
def LookedUp (env : Env) (cache : String → Bool) (ds : List Sighting) (device port : String) :
    Prop :=
  cache (layer1Key device port) = true ∧ ∃ d ∈ ds, portKey env d = some (device ++ ":" ++ port)

/-- A message leaves out device and port of a known peer, and has those of a sighting without an
address of its own on any other port that is no vlan interface and no port channel. -/
def Located (env : Env) (cache : String → Bool) (e : Emitted) : Prop :=
  ∀ device port, e.sighting.lookup "device" = some (.str device) →
    e.sighting.lookup "physical_port" = some port →
    (KnownPeer env cache device port.toText →
      "device" ∉ e.message.data ∧ "physical_port" ∉ e.message.data)
    ∧ ("ip_address" ∉ e.sighting → isVirtual env port = false →
      ¬ KnownPeer env cache device port.toText →
      e.message.data.lookup "device" = some (.str device)
        ∧ e.message.data.lookup "physical_port" = some port)

/-- A sighting whose port need not be looked up, or is found just when it is that of a known
peer. -/
def Agreeing (env : Env) (cache : String → Bool) (ds : List Sighting) (d : Sighting) : Prop :=
  ∀ device port, d.lookup "device" = some (.str device) → d.lookup "physical_port" = some port →
    "ip_address" ∈ d ∨ isVirtual env port = true
      ∨ (KnownPeer env cache device port.toText ↔ LookedUp env cache ds device port.toText)

/-- A message is for a sighting of the batch; one for an address comes from a sighting that has
passed once. -/
theorem mem_post_bulk_process {cache : String → Bool}
    {batch : List (Dict String Value × Dict String Value)} {e : Emitted}
    (h : e ∈ post_bulk_process env cache batch) :
    e.sighting ∈ combined batch
      ∧ ∃ d, e.message = (format_message env (strip env (uplinksOf env cache (combined batch)) d)).2
        ∧ (d = e.sighting ∨ "ip_address" ∈ e.sighting
          ∧ d = strip env (uplinksOf env cache (combined batch)) e.sighting) := by
  unfold post_bulk_process at h
  rcases List.mem_append.mp h with h | h
  · obtain ⟨p, hp, rfl⟩ := mem_emit h
    obtain ⟨d, hd, rfl⟩ := List.mem_map.mp hp
    exact ⟨(List.mem_filter.mp hd).1, d, rfl, Or.inl rfl⟩
  · obtain ⟨p, hp, rfl⟩ := mem_emit h
    obtain ⟨d, hd, rfl⟩ := List.mem_map.mp hp
    obtain ⟨hmac, hip⟩ := List.mem_filter.mp hd
    refine ⟨(List.mem_filter.mp hmac).1, _, rfl, Or.inr ⟨?_, rfl⟩⟩
    unfold present at hip
    cases hlook : d.lookup "ip_address" with
    | none =>
      rw [hlook] at hip
      cases hip
    | some v => exact Dict.mem_iff_lookup.mpr ⟨v, hlook⟩

/-- Device and port in a message, by what is taken for connected. -/
theorem lookup_emitted {cache : String → Bool}
    {batch : List (Dict String Value × Dict String Value)} {e : Emitted}
    (h : e ∈ post_bulk_process env cache batch) {k : String}
    (hk : k = "device" ∨ k = "physical_port") :
    e.message.data.lookup k
      = if directlyConnected env (uplinksOf env cache (combined batch)) e.sighting
        then e.sighting.lookup k else none := by
  obtain ⟨-, d, hmessage, hd⟩ := mem_post_bulk_process h
  have hcontext : k ∉ ["mac_address", "vlan"] := by
    rcases hk with rfl | rfl <;> decide
  rw [hmessage, lookup_format_message hcontext, lookup_strip hk]
  rcases hd with rfl | ⟨hip, rfl⟩
  · rfl
  · -- with an address of its own, nothing is left after the first pass
    have hnot : directlyConnected env (uplinksOf env cache (combined batch)) e.sighting = false := by
      unfold directlyConnected
      simp only [hip, not_true_eq_false, decide_false, Bool.false_and]
    rw [lookup_strip hk, hnot]
    simp only [Bool.false_eq_true, if_false, ite_self]

/-- **Uplink suppression**: a message says of device and port what it should just when the port
of its sighting need not be looked up, or is found just when it is that of a known peer. -/
theorem located_iff {cache : String → Bool} {batch : List (Dict String Value × Dict String Value)}
    {e : Emitted} (h : e ∈ post_bulk_process env cache batch) :
    Located env cache e ↔ Agreeing env cache (combined batch) e.sighting := by
  have hlookup := fun k hk => lookup_emitted (k := k) h hk
  unfold Located Agreeing
  refine forall_congr' (fun device => forall_congr' (fun port => forall_congr' (fun hdevice =>
    forall_congr' (fun hport => ?_))))
  have hdata := hlookup "device" (Or.inl rfl)
  have hdata' := hlookup "physical_port" (Or.inr rfl)
  -- what is taken for connected, for this device and port
  have hdirect : directlyConnected env (uplinksOf env cache (combined batch)) e.sighting = true
      ↔ "ip_address" ∉ e.sighting ∧ isVirtual env port = false
        ∧ ¬ LookedUp env cache (combined batch) device port.toText := by
    unfold directlyConnected LookedUp layer1Key
    rw [hdevice, hport]
    simp only [Value.toText, Bool.and_eq_true, decide_eq_true_iff, Bool.not_eq_true',
      mem_uplinksOf, and_assoc]
  rw [hdevice] at hdata
  rw [hport] at hdata'
  by_cases hd : directlyConnected env (uplinksOf env cache (combined batch)) e.sighting = true
  · rw [if_pos hd] at hdata hdata'
    obtain ⟨hip, hvirtual, hlooked⟩ := hdirect.mp hd
    have hin : "device" ∈ e.message.data := Dict.mem_iff_lookup.mpr ⟨_, hdata⟩
    simp only [hip, hvirtual, hlooked, Bool.false_eq_true, false_or, iff_false]
    constructor
    · exact fun hloc hpeer => (hloc.1 hpeer).1 hin
    · exact fun hpeer => ⟨fun hp => absurd hp hpeer, fun _ _ _ => ⟨hdata, hdata'⟩⟩
  · rw [if_neg hd] at hdata hdata'
    have hout : "device" ∉ e.message.data := AList.lookup_eq_none.mp hdata
    have hout' : "physical_port" ∉ e.message.data := AList.lookup_eq_none.mp hdata'
    constructor
    · rintro ⟨-, hkeeps⟩
      by_cases hip : "ip_address" ∈ e.sighting
      · exact Or.inl hip
      · cases hvirtual : isVirtual env port with
        | true => exact Or.inr (Or.inl rfl)
        | false =>
          refine Or.inr (Or.inr ⟨fun _ => ?_, fun _ => ?_⟩)
          · by_contra hlooked
            exact hd (hdirect.mpr ⟨hip, hvirtual, hlooked⟩)
          · by_contra hpeer
            have hkept := (hkeeps hip hvirtual hpeer).1
            rw [hdata] at hkept
            cases hkept
    · intro hagree
      refine ⟨fun _ => ⟨hout, hout'⟩, fun hip hvirtual hpeer => ?_⟩
      rcases hagree with h | h | h
      · exact absurd h hip
      · rw [hvirtual] at h
        cases h
      · exact absurd (hdirect.mpr ⟨hip, hvirtual, fun hl => hpeer (h.mpr hl)⟩) hd

/-- A device in lower case and a port without a subinterface are looked up as they stand. -/
theorem agreeing_of_plain {cache : String → Bool} {ds : List Sighting} {d : Sighting} (hd : d ∈ ds)
    (hplain : ∀ device port, d.lookup "device" = some (.str device) →
      d.lookup "physical_port" = some port →
      env.lower device = device ∧ '.' ∉ port.toText.toList) : Agreeing env cache ds d := by
  intro device port hdevice hport
  obtain ⟨hlower, hdot⟩ := hplain device port hdevice hport
  have hsub : withoutSubinterface port.toText = port.toText := by
    unfold withoutSubinterface Text.partition
    rw [List.takeWhile_eq_self_iff.mpr (fun c hc => ?_), String.ofList_toList]
    exact decide_eq_true (fun heq => hdot (heq ▸ hc))
  have hkey : portKey env d = some (device ++ ":" ++ port.toText) := by
    unfold portKey determine_physical_interface
    rw [hport, hdevice]
    simp only [hlower]
  refine Or.inr (Or.inr ?_)
  unfold KnownPeer LookedUp
  rw [hlower, hsub]
  exact ⟨fun h => ⟨h, d, hd, hkey⟩, fun h => h.1⟩

/-! ### A host behind a switch -/

/-- Case is changed for letters of the alphabet. -/
def plainEnv : Env where
  lower := fun s => String.ofList (s.toList.map Char.toLower)
  upper := fun s => String.ofList (s.toList.map Char.toUpper)
  dictToKv := fun d => Text.join " " (d.items.map (fun p => p.1 ++ "=" ++ p.2.toText))

/-- One host on a port of a switch. -/
def hostOn (device port : String) : List (Dict String Value × Dict String Value) :=
  [(Dict.ofList [("device", .str device)],
    Dict.ofList [("mac_address", .str "00:11:22:33:44:55"), ("physical_port", .str port)])]

/-- The port `Gi1/1` goes to another switch. -/
def peerCache (key : String) : Bool := key = "pt:layer1:swh-b050:Gi1/1"

theorem located_host : ∃ e ∈ post_bulk_process plainEnv peerCache (hostOn "swh-b050" "Gi1/1"),
    Located plainEnv peerCache e := by
  have hlength : (post_bulk_process plainEnv peerCache (hostOn "swh-b050" "Gi1/1")).length = 1 := by
    decide
  obtain ⟨e, he⟩ := List.length_eq_one_iff.mp hlength
  have hmem : e ∈ post_bulk_process plainEnv peerCache (hostOn "swh-b050" "Gi1/1") := by
    rw [he]
    exact List.mem_singleton_self e
  refine ⟨e, hmem, (located_iff hmem).mpr
    (agreeing_of_plain (mem_post_bulk_process hmem).1 (fun device port hdevice hport => ?_))⟩
  have hsighting : e.sighting ∈ combined (hostOn "swh-b050" "Gi1/1") :=
    (mem_post_bulk_process hmem).1
  rw [List.mem_singleton.mp hsighting] at hdevice hport
  have hdevice' : some (Value.str "swh-b050") = some (.str device) := hdevice
  have hport' : some (Value.str "Gi1/1") = some port := hport
  cases hdevice'
  cases hport'
  exact ⟨by decide, by decide⟩

/-- A host on a subinterface of an uplink, or on an uplink of a device that is not written in lower
case, is passed on with its device and port. -/
theorem not_located_host :
    (∃ e ∈ post_bulk_process plainEnv peerCache (hostOn "swh-b050" "Gi1/1.100"),
        ¬ Located plainEnv peerCache e)
      ∧ ∃ e ∈ post_bulk_process plainEnv peerCache (hostOn "SWH-B050" "Gi1/1"),
        ¬ Located plainEnv peerCache e := by
  have hfails : ∀ device port : String,
      (post_bulk_process plainEnv peerCache (hostOn device port)).any (fun e =>
        decide (e.sighting.lookup "device" = some (.str device)
          ∧ e.sighting.lookup "physical_port" = some (.str port) ∧ "device" ∈ e.message.data)) = true →
      peerCache (layer1Key (plainEnv.lower device) (withoutSubinterface port)) = true →
      ∃ e ∈ post_bulk_process plainEnv peerCache (hostOn device port),
        ¬ Located plainEnv peerCache e := by
    intro device port hany hpeer
    obtain ⟨e, he, hcells⟩ := List.any_eq_true.mp hany
    obtain ⟨hdevice, hport, hin⟩ := of_decide_eq_true hcells
    exact ⟨e, he, fun hloc => ((hloc device (.str port) hdevice hport).1 hpeer).1 hin⟩
  exact ⟨hfails "swh-b050" "Gi1/1.100" (by decide +kernel) (by decide),
    hfails "SWH-B050" "Gi1/1" (by decide +kernel) (by decide)⟩

end HostWatcher
