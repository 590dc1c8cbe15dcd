/-
# From the inventory to the schedule

`NetworkDevices.run` writes the files of the categories, and the scheduler loads those that it is
configured with.  When it has loaded them again after a run, its nodes are the devices that the
inventory lists in these categories, but for the terminal servers; it has an entry for every
scheduled spec of a new one, and none of the entries for other hosts is ever put back.

A file is what the loader makes of it, and a mapping that is written is loaded as it was.
-/
import Ptolemy.NetworkDevices
import Ptolemy.SchedulerReload

namespace InventorySchedule

open Scheduler (Parser Entry Tick)

/-! ## The files that the scheduler reads -/

/-- What is loaded under `hosts`. -/
def hostsYaml : NetworkDevices.Hosts → Yaml
  | .dict hosts => .dict hosts.items
  | .other v => v

/-- What is loaded from a file. -/
def fileYaml : NetworkDevices.File → Except Exn Yaml
  | .unreadable => .error (.exception "could not be loaded")
  | .document doc => .ok (.dict ((doc.hosts.elim [] (fun hosts => [("hosts", hostsYaml hosts)]))
      ++ Dict.items (doc.rest.erase "hosts")))
  | .other v => .ok v

/-- What is loaded from the file of a category. -/
def nodeFile (files : NetworkDevices.Files) (c : String) : Except Exn Yaml :=
  match files.lookup c with
  | none => .error (.exception "No such file or directory")
  | some file => fileYaml file

/-- The configuration of the scheduler, with these node files. -/
def configured (schedule snmp : Except Exn Yaml) (files : NetworkDevices.Files)
    (confs : List String) : Scheduler.Files where
  schedule := some schedule
  snmp := snmp
  nodes := confs.map (nodeFile files)

/-- What is no mapping is told apart from one. -/
def Proper : NetworkDevices.File → Prop
  | .document ⟨_, some (.other v)⟩ => ∀ entries, v ≠ .dict entries
  | .other v => ∀ entries, v ≠ .dict entries
  | _ => True

/-! ## Loading them -/

/-- Node files that are all loaded. -/
theorem loadNodeFiles_ok {files : List (Except Exn Yaml)} {nodes : Dict String Yaml}
    (h : (Scheduler.loadNodeFiles files nodes).2 = .ok ()) : ∃ docs : List Yaml,
      files = docs.map Except.ok ∧ (∀ this ∈ docs, Scheduler.WellFormed this)
        ∧ (Scheduler.loadNodeFiles files nodes).1
          = (docs.flatMap Scheduler.fileHosts).foldl (fun d e => AList.insert e.1 e.2 d) nodes := by
  induction files generalizing nodes with
  | nil => exact ⟨[], rfl, fun this hthis => absurd hthis List.not_mem_nil, rfl⟩
  | cons file files ih =>
    cases file with
    | error e => cases h
    | ok this =>
      obtain ⟨hnodes, hok⟩ := Scheduler.loadNodeFile_eq this nodes
      unfold Scheduler.loadNodeFiles at h ⊢
      cases hfile : Scheduler.loadNodeFile this nodes with
      | mk nodes' r =>
        rw [hfile] at h hnodes hok
        cases r with
        | error e => cases h
        | ok u =>
          obtain ⟨docs, rfl, hgood, hloaded⟩ := ih h
          refine ⟨this :: docs, rfl, fun x hx => ?_, ?_⟩
          · rcases List.mem_cons.mp hx with rfl | hx
            · exact hok.mp rfl
            · exact hgood x hx
          · rw [List.flatMap_cons, List.foldl_append, ← hnodes]
            exact hloaded

theorem map_fst_hostsBefore {schedule snmp : Yaml} {hosts : List (String × Yaml)}
    (h : (Scheduler.hostsBefore schedule snmp hosts).length = hosts.length) :
    (Scheduler.hostsBefore schedule snmp hosts).map Prod.fst = hosts.map Prod.fst := by
  induction hosts with
  | nil => rfl
  | cons e hosts ih =>
    obtain ⟨n, host⟩ := e
    unfold Scheduler.hostsBefore at h ⊢
    cases hinherit : Scheduler.inheritSettings schedule snmp host with
    | error err =>
      rw [hinherit] at h
      cases h
    | ok host' =>
      rw [hinherit] at h
      exact congrArg (n :: ·) (ih (Nat.succ.inj h))

/-- Hosts are those of a mapping with a mapping of hosts. -/
theorem hostsOf_eq_some {this schedule snmp : Yaml} {hosts : List (String × Yaml)}
    (h : Scheduler.hostsOf this = .ok (some (schedule, snmp, hosts))) :
    ∃ entries, this = .dict entries ∧ entries.lookup "hosts" = some (.dict hosts) := by
  unfold Scheduler.hostsOf at h
  obtain ⟨has, -, h⟩ := Except.bind_eq_ok.mp h
  cases has with
  | false => cases h
  | true =>
    rw [if_pos rfl] at h
    obtain ⟨schedule', -, h⟩ := Except.bind_eq_ok.mp h
    obtain ⟨snmp', -, h⟩ := Except.bind_eq_ok.mp h
    obtain ⟨v, hv, h⟩ := Except.bind_eq_ok.mp h
    obtain ⟨entries, rfl⟩ : ∃ entries, this = .dict entries := by
      cases this with
      | dict entries => exact ⟨entries, rfl⟩
      | _ => cases hv
    refine ⟨entries, rfl, ?_⟩
    cases hlook : entries.lookup "hosts" with
    | none =>
      simp only [Yaml.getKey, hlook] at hv
      cases hv
    | some w =>
      simp only [Yaml.getKey, hlook] at hv
      obtain rfl := Except.ok.inj hv
      split_ifs at h
      · cases w with
        | dict l =>
          cases h
          rfl
        | _ => cases h
      · cases h

/-- A mapping without hosts. -/
theorem hostsOf_eq_none {entries : List (String × Yaml)}
    (h : Scheduler.hostsOf (.dict entries) = .ok none) {v : Yaml}
    (hv : entries.lookup "hosts" = some v) : v.truthy = false := by
  unfold Scheduler.hostsOf at h
  obtain ⟨has, hhas, h⟩ := Except.bind_eq_ok.mp h
  simp only [Yaml.hasKey, hv] at hhas
  cases hhas
  rw [if_pos (show (some v).isSome = true from rfl)] at h
  obtain ⟨schedule', -, h⟩ := Except.bind_eq_ok.mp h
  obtain ⟨snmp', -, h⟩ := Except.bind_eq_ok.mp h
  obtain ⟨w, hw, h⟩ := Except.bind_eq_ok.mp h
  simp only [Yaml.getKey, hv] at hw
  cases hw
  by_contra htrue
  rw [if_pos (by simpa using htrue)] at h
  cases v <;> cases h

/-- What a document is loaded as has its hosts under their key. -/
theorem lookup_document (rest : Dict String Yaml) (hosts : Option NetworkDevices.Hosts) :
    ((hosts.elim [] (fun hosts => [("hosts", hostsYaml hosts)]))
      ++ Dict.items (rest.erase "hosts")).lookup "hosts" = hosts.map hostsYaml := by
  cases hosts with
  | none =>
    refine List.lookup_eq_none_iff.mpr (fun e he => ?_)
    have hlook := Dict.mem_items.mp (show (e.1, e.2) ∈ Dict.items (rest.erase "hosts") from he)
    rw [Dict.lookup_erase_eq] at hlook
    by_contra heq
    rw [if_pos (Eq.symm (by simpa using heq))] at hlook
    cases hlook
  | some hosts => rfl

/-- **The nodes of a file** are its hosts. -/
theorem mem_fileHosts {file : NetworkDevices.File} (hproper : Proper file) {this : Yaml}
    (hload : fileYaml file = .ok this) (hgood : Scheduler.WellFormed this) (h : String) :
    h ∈ (Scheduler.fileHosts this).map Prod.fst ↔ h ∈ NetworkDevices.hostsOf (some file) := by
  have hnone : (∀ r, Scheduler.hostsOf this ≠ .ok (some r)) →
      h ∉ (Scheduler.fileHosts this).map Prod.fst := by
    intro hnot
    rw [Scheduler.fileHosts_eq]
    cases hhosts : Scheduler.hostsOf this with
    | error e => exact List.not_mem_nil
    | ok r =>
      cases r with
      | none => exact List.not_mem_nil
      | some r => exact absurd hhosts (hnot r)
  cases file with
  | unreadable => cases hload
  | other v =>
    cases hload
    refine iff_of_false (hnone (fun r heq => ?_)) (AList.notMem_empty h)
    obtain ⟨entries, rfl, -⟩ := hostsOf_eq_some heq
    exact hproper entries rfl
  | document doc =>
    obtain ⟨rest, hosts⟩ := doc
    cases hload
    have hlook := lookup_document rest hosts
    rcases hosts with _ | hosts | v
    · refine iff_of_false (hnone (fun r heq => ?_)) (AList.notMem_empty h)
      obtain ⟨entries, hentries, hhosts⟩ := hostsOf_eq_some heq
      cases hentries
      rw [hlook] at hhosts
      cases hhosts
    · have hmem : h ∈ NetworkDevices.hostsOf (some (.document ⟨rest, some (.dict hosts)⟩))
          ↔ h ∈ hosts.items.map Prod.fst := by
        rw [Dict.items_map_fst]
        exact AList.mem_keys.symm
      rw [hmem, Scheduler.fileHosts_eq]
      rcases hgood with hnull | hno | ⟨schedule, snmp, l, hsome, hlen⟩
      · cases hnull
      · -- an empty mapping is as none
        have hempty := hostsOf_eq_none hno hlook
        rw [hno, show hosts.items = [] by simpa [hostsYaml, Yaml.truthy] using hempty]
      · obtain ⟨entries, hentries, hhosts⟩ := hostsOf_eq_some hsome
        cases hentries
        rw [hlook] at hhosts
        cases hhosts
        rw [hsome]
        show h ∈ (Scheduler.hostsBefore schedule snmp hosts.items).map Prod.fst ↔ _
        rw [map_fst_hostsBefore hlen]
    · refine iff_of_false (hnone (fun r heq => ?_)) (AList.notMem_empty h)
      obtain ⟨entries, hentries, hhosts⟩ := hostsOf_eq_some heq
      cases hentries
      rw [hlook] at hhosts
      exact hproper r.2.2 (Option.some.inj hhosts)

/-- What is looked up in a dictionary that pairs are put into one after the other. -/
theorem mem_foldl_insert {l : List (String × Yaml)} (d : Dict String Yaml) (h : String) :
    h ∈ l.foldl (fun d e => AList.insert e.1 e.2 d) d ↔ h ∈ l.map Prod.fst ∨ h ∈ d := by
  induction l generalizing d with
  | nil => simp
  | cons e l ih =>
    rw [List.foldl_cons, ih, AList.mem_insert, List.map_cons, List.mem_cons]
    tauto

variable {cfg : NetworkDevices.Settings} {devices confs : List String}
  {files files' : NetworkDevices.Files}

/-- Files that are proper stay so. -/
theorem proper_run (hrun : NetworkDevices.run cfg devices files = .ok files')
    (hproper : ∀ c file, files.lookup c = some file → Proper file) (c : String)
    (file : NetworkDevices.File) (hlook : files'.lookup c = some file) : Proper file := by
  have hupdate : ∀ {these : Dict String NetworkDevices.This} {file file'},
      NetworkDevices.updateFile these file = .ok file' → Proper file' := by
    intro these file file' h
    obtain ⟨doc, hdoc, h⟩ := Except.bind_eq_ok.mp h
    obtain ⟨rest, hosts⟩ := doc
    rcases hosts with _ | hosts | v
    · cases h
    · cases h
      trivial
    · cases h
  unfold NetworkDevices.run at hrun
  generalize cfg.order.order (NetworkDevices.items cfg devices).items = l at hrun
  induction l generalizing files with
  | nil =>
    cases hrun
    exact hproper c file hlook
  | cons p l ih =>
    rw [List.foldlM_cons] at hrun
    obtain ⟨files₁, hfirst, hrun⟩ := Except.bind_eq_ok.mp hrun
    obtain ⟨file₁, hfile₁, hfiles₁⟩ := Except.bind_eq_ok.mp hfirst
    cases hfiles₁
    refine ih (fun c' file' hlook' => ?_) hrun
    rw [Dict.lookup_insert_eq] at hlook'
    split_ifs at hlook' with heq
    · cases hlook'
      exact hupdate hfile₁
    · exact hproper c' file' hlook'

/-! ## The nodes -/

/-- The hosts in the file of a category after a run: the devices listed for it that are no terminal
servers, and those terminal servers that were there; where no device is listed for the category,
what was there. -/
def Polled (cfg : NetworkDevices.Settings) (devices : List String) (files : NetworkDevices.Files)
    (h c : String) : Prop :=
  (NetworkDevices.Listed cfg devices h c
      ∧ (¬ cfg.isTerminal h ∨ h ∈ NetworkDevices.hostsOf (files.lookup c)))
    ∨ ((∀ h', ¬ NetworkDevices.Listed cfg devices h' c)
      ∧ h ∈ NetworkDevices.hostsOf (files.lookup c))

theorem mem_hostsOf_run (hrun : NetworkDevices.run cfg devices files = .ok files')
    (h c : String) :
    h ∈ NetworkDevices.hostsOf (files'.lookup c) ↔ Polled cfg devices files h c := by
  obtain ⟨hhere, hgone, hleft⟩ := NetworkDevices.lookup_run hrun c h
  unfold Polled
  by_cases hl : NetworkDevices.Listed cfg devices h c
  · have hsome : ¬ ∀ h', ¬ NetworkDevices.Listed cfg devices h' c := fun hnone => hnone h hl
    rw [Dict.mem_iff_lookup, hhere hl, Dict.mem_iff_lookup]
    by_cases hterminal : cfg.isTerminal h
    · simp [hl, hterminal, hsome]
    · simp [hl, hterminal]
  · by_cases hsome : ∃ h', NetworkDevices.Listed cfg devices h' c
    · refine iff_of_false (hgone hl hsome) ?_
      rintro (⟨hl', -⟩ | ⟨hnone, -⟩)
      · exact hl hl'
      · exact hsome.elim hnone
    · rw [hleft (not_exists.mp hsome)]
      simp [hl, not_exists.mp hsome]

/-- **The nodes after a load** are the hosts of the files that it is configured with. -/
theorem mem_nodes_load {schedule snmp : Except Exn Yaml}
    (hproper : ∀ c file, files.lookup c = some file → Proper file) {p q : Parser}
    (hload : p.load (configured schedule snmp files confs) = (q, .ok ())) (h : String) :
    h ∈ q.nodes ↔ ∃ c ∈ confs, h ∈ NetworkDevices.hostsOf (files.lookup c) := by
  -- the node files are read last, after the settings
  obtain ⟨hok, hq⟩ : (Scheduler.loadNodeFiles (confs.map (nodeFile files)) ∅).2 = .ok ()
      ∧ q.nodes = (Scheduler.loadNodeFiles (confs.map (nodeFile files)) ∅).1 := by
    unfold Parser.load at hload
    simp only [configured, Option.getD_some] at hload
    cases schedule with
    | error e => cases hload
    | ok schedule =>
      cases snmp with
      | error e => cases hload
      | ok snmp =>
        obtain ⟨rfl, hok⟩ := Prod.mk.inj hload
        exact ⟨hok, rfl⟩
  obtain ⟨docs, hdocs, hgood, hnodes⟩ := loadNodeFiles_ok hok
  rw [hq, hnodes, mem_foldl_insert, or_iff_left (AList.notMem_empty h), List.map_flatMap,
    List.mem_flatMap]
  -- each category of the configuration has a file that was loaded
  have hfile : ∀ c ∈ confs, ∃ file this, files.lookup c = some file ∧ fileYaml file = .ok this
      ∧ this ∈ docs := by
    intro c hc
    have hmem : nodeFile files c ∈ docs.map Except.ok := hdocs ▸ List.mem_map_of_mem hc
    obtain ⟨this, hthis, heq⟩ := List.mem_map.mp hmem
    unfold nodeFile at heq
    cases hlook : files.lookup c with
    | none =>
      rw [hlook] at heq
      cases heq
    | some file =>
      rw [hlook] at heq
      exact ⟨file, this, rfl, heq.symm, hthis⟩
  constructor
  · rintro ⟨this, hthis, hmem⟩
    have hnode : Except.ok this ∈ confs.map (nodeFile files) := hdocs ▸ List.mem_map_of_mem hthis
    obtain ⟨c, hc, heq⟩ := List.mem_map.mp hnode
    obtain ⟨file, -, hlook, -, -⟩ := hfile c hc
    rw [nodeFile, hlook] at heq
    refine ⟨c, hc, ?_⟩
    rw [hlook]
    exact (mem_fileHosts (hproper c file hlook) heq (hgood this hthis) h).mp hmem
  · rintro ⟨c, hc, hmem⟩
    obtain ⟨file, this, hlook, hthis, hdoc⟩ := hfile c hc
    rw [hlook] at hmem
    exact ⟨this, hdoc, (mem_fileHosts (hproper c file hlook) hthis (hgood this hdoc) h).mpr hmem⟩

/-! ## The schedule -/

/-- The schedule that a parser `p` comes to have: its nodes are the polled devices, every scheduled
pair that `p` did not name has an entry, and the entries for other hosts are among those of `p`. -/
structure Inventoried (cfg : NetworkDevices.Settings) (devices : List String)
    (files : NetworkDevices.Files) (confs : List String) (p q : Parser) : Prop where
  nodes : ∀ h, h ∈ q.nodes ↔ ∃ c ∈ confs, Polled cfg devices files h c
  entered : ∀ h s, q.Scheduled h s → ¬ p.Named h s → (h, s) ∈ q.pairs
  expiring : (q.heap.filter (fun e => e.node ∉ q.nodes)).Subperm p.heap

theorem call_nodes (p : Parser) (c : Scheduler.Call) : (Scheduler.call p c).nodes = p.nodes := by
  cases hpop : Heapq.heappop p.heap with
  | none => rw [Scheduler.call_of_empty hpop]
  | some er =>
    obtain ⟨e, rest⟩ := er
    cases c with
    | peek => simp only [Scheduler.call, Scheduler.peek_of_pop hpop]
    | next tick =>
      rcases Scheduler.next_of_pop tick hpop with ⟨x, t, d, -, -, hnext⟩ | ⟨-, hnext⟩
      · rw [Scheduler.call, hnext]
      · rw [Scheduler.call, hnext]

/-- No call puts back an entry for a host that is not there. -/
theorem call_expiring (p : Parser) (c : Scheduler.Call) :
    ((Scheduler.call p c).heap.filter (fun e => e.node ∉ p.nodes)).Subperm
      (p.heap.filter (fun e => e.node ∉ p.nodes)) := by
  cases hpop : Heapq.heappop p.heap with
  | none =>
    rw [Scheduler.call_of_empty hpop]
  | some er =>
    obtain ⟨e, rest⟩ := er
    have hperm := (Heapq.heappop_perm hpop).filter (fun e => e.node ∉ p.nodes)
    cases c with
    | peek =>
      rw [Scheduler.call, Scheduler.peek_of_pop hpop]
      exact (((Heapq.heappush_perm rest e).filter _).trans hperm.symm).subperm
    | next tick =>
      have hrest : (rest.filter (fun e => e.node ∉ p.nodes)).Subperm
          (p.heap.filter (fun e => e.node ∉ p.nodes)) :=
        ((List.sublist_cons_self e rest).filter _).subperm.trans hperm.symm.subperm
      rcases Scheduler.next_of_pop tick hpop with ⟨x, t, d, hevery, -, hnext⟩ | ⟨-, hnext⟩
      · -- what is put back is for a node
        have hnode : e.node ∈ p.nodes :=
          (Parser.Scheduled.named ⟨t, d, hevery⟩).mem_nodes
        rw [Scheduler.call, hnext]
        refine ((Heapq.heappush_perm rest _).filter _).subperm.trans ?_
        rwa [List.filter_cons_of_neg (by simpa using hnode)]
      · rw [Scheduler.call, hnext]
        exact hrest

theorem Inventoried.call {p q : Parser} (h : Inventoried cfg devices files confs p q)
    (c : Scheduler.Call) : Inventoried cfg devices files confs p (Scheduler.call q c) where
  nodes := fun n => by rw [call_nodes, h.nodes]
  entered := fun n s hsched hnew => by
    rw [Parser.scheduled_congr (Scheduler.call_period q c)] at hsched
    have hmem := h.entered n s hsched hnew
    rcases Scheduler.call_pairs q c with hperm | ⟨n', s', hnot, hperm⟩
    · exact hperm.mem_iff.mpr hmem
    · refine (List.mem_cons.mp (hperm.mem_iff.mp hmem)).resolve_left (fun heq => ?_)
      obtain ⟨rfl, rfl⟩ := Prod.mk.inj heq
      exact hnot hsched
  expiring := by
    rw [call_nodes]
    exact (call_expiring q c).trans h.expiring

/-- A reload after a run makes it so. -/
theorem inventoried_reset (hrun : NetworkDevices.run cfg devices files = .ok files')
    (hproper : ∀ c file, files.lookup c = some file → Proper file)
    {schedule snmp : Except Exn Yaml} {ticks : String → String → Tick} {p : Parser}
    (hok : (p.resetSchedule (configured schedule snmp files' confs) ticks).2 = .ok ()) :
    Inventoried cfg devices files confs p
      (p.resetSchedule (configured schedule snmp files' confs) ticks).1 := by
  rcases Scheduler.resetSchedule_cases (configured schedule snmp files' confs) ticks p with
    ⟨-, herr⟩ | ⟨q, l, hload, hheap, hl, hall⟩
  · exact absurd hok herr
  · have hpairs := hl.reset_pairs hheap
    refine ⟨fun h => ?_, fun h s hsched hnew => ?_, ?_⟩
    · rw [hl.nodes, mem_nodes_load (proper_run hrun hproper) hload]
      exact exists_congr (fun c => and_congr_right (fun _ => mem_hostsOf_run hrun h c))
    · rw [Parser.scheduled_congr hl.period] at hsched
      have hmem := hall hok h s ⟨hsched.named.mem_nodes, hnew⟩ hsched
      exact hpairs.mem_iff.mpr (List.mem_append_left _ hmem)
    · -- the entries that were added are for nodes
      have hadded : l.filter (fun e => e.node ∉ q.nodes) = [] :=
        List.filter_eq_nil_iff.mpr (fun e he => by simpa using (hl.mem e he).1.1)
      rw [hl.nodes, ← hheap]
      refine (hl.heap.filter _).subperm.trans ?_
      rw [List.filter_append, hadded, List.nil_append]
      exact List.filter_sublist.subperm

/-- **From the inventory to the schedule.**  When the files of the devices have been written and the
scheduler has loaded those of its categories, then from there on its nodes are the devices that are
to be polled, every scheduled pair of a new one always has an entry, and an entry for any other host
is one from before, which is never put back. -/
theorem inventoried (hrun : NetworkDevices.run cfg devices files = .ok files')
    (hproper : ∀ c file, files.lookup c = some file → Proper file)
    {schedule snmp : Except Exn Yaml} {ticks : String → String → Tick} {p : Parser}
    (hok : (p.resetSchedule (configured schedule snmp files' confs) ticks).2 = .ok ())
    (cs : List Scheduler.Call) :
    Run.Always Scheduler.call (Inventoried cfg devices files confs p)
      (p.resetSchedule (configured schedule snmp files' confs) ticks).1 cs :=
  Run.Always.of_step (fun _ c h => h.call c) (inventoried_reset hrun hproper hok) cs

/-- The file of the routers with one of them. -/
def routerFiles (h : String) : NetworkDevices.Files :=
  Dict.ofList [("routers", .document ⟨∅, some (.dict (Dict.ofList [(h, .null)]))⟩)]

/-- One router takes the place of another. -/
theorem inventoried_replaced :
    Run.Always Scheduler.call
      (Inventoried NetworkDevices.site ["rtr-core2"] (routerFiles "rtr-core1") ["routers"]
        ((Scheduler.sampleParser "60 +- 4" ["rtr-core1"]).initSchedule
          (fun _ _ => Scheduler.tickAt 100)).1)
      (((Scheduler.sampleParser "60 +- 4" ["rtr-core1"]).initSchedule
        (fun _ _ => Scheduler.tickAt 100)).1.resetSchedule
          (configured (.ok (.dict [("default", .dict [("ports", .str "60 +- 4")])]))
            (.ok (.dict [("default", .dict [])])) (routerFiles "rtr-core2") ["routers"])
          (fun _ _ => Scheduler.tickAt 100)).1
      [.next (Scheduler.tickAt 100), .peek] := by
  refine inventoried (by rfl) (fun c file hlook => ?_) (by decide +kernel) _
  have hmem := (Dict.lookup_ofList (by decide)).mp hlook
  obtain ⟨-, rfl⟩ := Prod.mk.inj (List.mem_singleton.mp hmem)
  trivial

end InventorySchedule
