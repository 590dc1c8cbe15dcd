/-
# The files of the network devices

`NetworkDevices.run` puts each device of the IPAM database into the YAML file of its
category, from which the scheduler reads what to poll.  The hosts that a file already has
keep what was written there for them; hosts that are no longer in the category are taken
out, and terminal servers are not put in.

Only the files of categories that have a device are looked at.  The update of the store is
left out, and a YAML file is what the loader makes of it; regular expressions are
searched for by a parameter.
-/
import Ptolemy.Yaml

namespace NetworkDevices

/-! ## Categories -/

/-- The sections of a configuration file, with their options. -/
abbrev ConfigParser : Type := List (String × Dict String String)

/-- `re.search`: whether a text has a match. -/
abbrev Search : Type := String → String → Bool

/-- `Categoriser.match`: the sections whose option has a pattern that is found in the name. -/
def matchSections (search : Search) (configParser : ConfigParser) (name field : String) :
    List String :=
  (configParser.filter (fun t => match t.2.lookup field with
    | none => false
    | some patterns => (Text.split ',' patterns).any
        (fun i => search (String.ofList (Text.strip i.toList)) name))).map Prod.fst

structure Categoriser : Type where
  types : ConfigParser
  groups : ConfigParser
  categories : ConfigParser

/-- What a device is found to be. -/
structure This : Type where
  hostname : String
  type : List String
  groups : List String
  categories : List String

/-- `set(a) ^ set(b)`, as a list in some order. -/
def symmetricDifference (o : IterOrder) (a b : List String) : List String :=
  o.order ((a.filter (· ∉ b) ++ b.filter (· ∉ a)).dedup)

/-- `Categoriser.get`. -/
def Categoriser.get (cat : Categoriser) (search : Search) (o : IterOrder) (name : String) : This :=
  let c := symmetricDifference o (matchSections search cat.categories name "name")
    (matchSections search cat.categories name "exclude")
  { hostname := name
    type := matchSections search cat.types name "name"
    groups := matchSections search cat.groups name "name"
    categories := if c.isEmpty then ["other"] else c }

/-! ## Files -/

/-- What a file has under `hosts`. -/
inductive Hosts : Type where
  | dict (hosts : Dict String Yaml)
  | other (v : Yaml)

/-- A file that is a mapping: its other entries, and what it has under `hosts`. -/
structure Document : Type where
  rest : Dict String Yaml
  hosts : Option Hosts

/-- A file, as it is loaded: it raises, or it is a mapping, or anything else, such as an empty
file. -/
inductive File : Type where
  | unreadable
  | document (doc : Document)
  | other (v : Yaml)

/-- The files of the directory, by category. -/
abbrev Files : Type := Dict String File

/-- The document that a new file begins with. -/
def emptyDocument : Document where
  rest := Dict.ofList [("settings", .dict [("snmp", .str "default"), ("schedule", .str "default")])]
  hosts := some (.dict ∅)

/-- What is current: a file that does not load is begun anew. -/
def current : Option File → Except Exn Document
  | none | some .unreadable => .ok emptyDocument
  | some (.document doc) => .ok doc
  | some (.other _) => .error (.typeError "argument is not iterable")

/-- What is written for a host: its customisation, if there is one. -/
def customisation (currentHosts : Dict String Yaml) (n : String) : Yaml :=
  match currentHosts.lookup n with
  | some v => if v.truthy then v else .null
  | none => .null

/-- The hosts of a category that are no terminal servers are added. -/
def addHosts (these : Dict String This) (currentHosts : Dict String Yaml) : Dict String Yaml :=
  (Dict.sortedKeys these).foldl (fun hosts n => match these.lookup n with
    | none => hosts
    | some this => if "terminal" ∈ this.type then hosts
        else hosts.insert n (customisation currentHosts n)) currentHosts

/-- The hosts that are no longer in use are removed. -/
def removeHosts (these : Dict String This) (currentHosts hosts : Dict String Yaml) :
    Dict String Yaml :=
  (currentHosts.keys.filter (· ∉ these.keys)).foldl (fun hosts n => AList.erase n hosts) hosts

/-- The file of one category. -/
def updateFile (these : Dict String This) (file : Option File) : Except Exn File := do
  let doc ← current file
  match doc.hosts with
  | none => throw (.keyError "hosts")
  | some (.other _) => throw (.typeError "object has no len()")
  | some (.dict currentHosts) => pure (.document { doc with
      hosts := some (.dict (removeHosts these currentHosts (addHosts these currentHosts))) })

/-! ## The run -/

/-- What a run is given, besides the files. -/
structure Settings : Type 1 where
  cat : Categoriser
  search : Search
  excludeDevices : List String
  order : IterOrder := IterOrder.stored

variable (cfg : Settings)

/-- What the categoriser says of a device. -/
def Settings.this (d : String) : This := cfg.cat.get cfg.search cfg.order d

def Settings.isExcluded (d : String) : Bool := cfg.excludeDevices.any (fun r => cfg.search r d)

/-- One device joins those of its category. -/
def addItem (items : Dict String (Dict String This)) (d : String) :
    Dict String (Dict String This) :=
  if cfg.isExcluded d then items
  else match (cfg.this d).categories.getLast? with
    | none => items
    | some k => items.insert k (((items.lookup k).getD ∅).insert d (cfg.this d))

/-- The devices of each category. -/
def items (devices : List String) : Dict String (Dict String This) :=
  devices.foldl (addItem cfg) ∅

/-- The file of a category is read and written again. -/
def writeFile (files : Files) (p : String × Dict String This) : Except Exn Files := do
  let file ← updateFile p.2 (files.lookup p.1)
  pure (files.insert p.1 file)

/-- `run`, with updates. -/
def run (devices : List String) (files : Files) : Except Exn Files :=
  (cfg.order.order (items cfg devices).items).foldlM writeFile files

/-! ## What a file ought to have -/

/-- The hosts that a file has. -/
def hostsOf : Option File → Dict String Yaml
  | some (.document ⟨_, some (.dict hosts)⟩) => hosts
  | _ => ∅

/-- A device that is listed and not excluded, and its category. -/
def Listed (devices : List String) (h c : String) : Prop :=
  h ∈ devices ∧ cfg.isExcluded h = false ∧ (cfg.this h).categories.getLast? = some c

instance (devices : List String) (h c : String) : Decidable (Listed cfg devices h c) :=
  inferInstanceAs (Decidable (_ ∧ _ ∧ _))

def Settings.isTerminal (h : String) : Prop := "terminal" ∈ (cfg.this h).type

instance (h : String) : Decidable (cfg.isTerminal h) := inferInstanceAs (Decidable (_ ∈ _))

/-- The files have the listed devices, each in the file of its category and with its
customisation, and no other hosts. -/
structure Settled (devices : List String) (before after : Files) : Prop where
  hosts : ∀ c h, h ∈ hostsOf (after.lookup c) ↔ Listed cfg devices h c ∧ ¬ cfg.isTerminal h
  kept : ∀ c h v, Listed cfg devices h c → ¬ cfg.isTerminal h →
    (hostsOf (before.lookup c)).lookup h = some v → (hostsOf (after.lookup c)).lookup h = some v

/-- A file that the run can bring up to date: there is none, it cannot be loaded, or it has a
mapping of hosts. -/
def Usable : Option File → Prop
  | none | some .unreadable => True
  | some (.document ⟨_, some (.dict _)⟩) => True
  | _ => False

/-- The files that come out right: those of categories with a device can be brought up to date, those
of other categories have no hosts, terminal servers are not in the file of their category, and the
hosts that stay have no customisation that is empty but not null. -/
structure Ready (devices : List String) (files : Files) : Prop where
  usable : ∀ c h, Listed cfg devices h c → Usable (files.lookup c)
  emptied : ∀ c, (∀ h, ¬ Listed cfg devices h c) → ∀ h, h ∉ hostsOf (files.lookup c)
  terminal : ∀ c h, Listed cfg devices h c → cfg.isTerminal h → h ∉ hostsOf (files.lookup c)
  customised : ∀ c h v, Listed cfg devices h c → ¬ cfg.isTerminal h →
    (hostsOf (files.lookup c)).lookup h = some v → v.truthy = true ∨ v = .null

/-! ## The devices of each category -/

variable {cfg} {devices : List String} {files : Files}

/-- What is said of a device in a category. -/
def entry (items : Dict String (Dict String This)) (c h : String) : Option This :=
  ((items.lookup c).getD ∅).lookup h

theorem entry_addItem (items : Dict String (Dict String This)) (d c h : String) :
    entry (addItem cfg items d) c h
      = if Listed cfg [d] h c then some (cfg.this h) else entry items c h := by
  unfold addItem
  by_cases hexcluded : cfg.isExcluded d = true
  · rw [if_pos hexcluded, if_neg]
    rintro ⟨hd, hnot, -⟩
    rw [List.mem_singleton.mp hd, hexcluded] at hnot
    cases hnot
  · rw [if_neg hexcluded]
    cases hk : (cfg.this d).categories.getLast? with
    | none =>
      rw [if_neg]
      rintro ⟨hd, -, hc⟩
      rw [List.mem_singleton.mp hd, hk] at hc
      cases hc
    | some k =>
      simp only [entry, Dict.lookup_insert_eq]
      by_cases hc : c = k
      · subst hc
        rw [if_pos rfl, Option.getD_some, Dict.lookup_insert_eq]
        by_cases hh : h = d
        · subst hh
          rw [if_pos rfl, if_pos ⟨List.mem_singleton_self h, by simpa using hexcluded, hk⟩]
        · rw [if_neg hh, if_neg (fun hl => hh (List.mem_singleton.mp hl.1))]
      · rw [if_neg hc, if_neg]
        rintro ⟨hd, -, hc'⟩
        rw [List.mem_singleton.mp hd, hk] at hc'
        exact hc (Option.some.inj hc').symm

variable (cfg) in
/-- **The devices of a category** are those that are listed for it. -/
theorem entry_items (devices : List String) (c h : String) :
    entry (items cfg devices) c h
      = if Listed cfg devices h c then some (cfg.this h) else none := by
  have hgen : ∀ its, entry (devices.foldl (addItem cfg) its) c h
      = if Listed cfg devices h c then some (cfg.this h) else entry its c h := by
    induction devices with
    | nil =>
      intro its
      rw [List.foldl_nil, if_neg (fun hl => List.not_mem_nil hl.1)]
    | cons d devices ih =>
      intro its
      have hcons : Listed cfg (d :: devices) h c
          ↔ Listed cfg devices h c ∨ Listed cfg [d] h c := by
        unfold Listed
        rw [List.mem_cons, List.mem_singleton]
        tauto
      rw [List.foldl_cons, ih, entry_addItem]
      by_cases hrest : Listed cfg devices h c
      · rw [if_pos hrest, if_pos (hcons.mpr (Or.inl hrest))]
      · rw [if_neg hrest]
        by_cases hd : Listed cfg [d] h c
        · rw [if_pos hd, if_pos (hcons.mpr (Or.inr hd))]
        · rw [if_neg hd, if_neg (fun hl => (hcons.mp hl).elim hrest hd)]
  exact hgen ∅

/-- A category is there only with a device. -/
theorem exists_listed {c : String} (hc : c ∈ items cfg devices) :
    ∃ h, Listed cfg devices h c := by
  have hgen : ∀ its : Dict String (Dict String This), c ∈ devices.foldl (addItem cfg) its →
      c ∈ its ∨ ∃ h, Listed cfg devices h c := by
    clear hc
    induction devices with
    | nil => exact fun its hc => Or.inl hc
    | cons d devices ih =>
      intro its hc
      rcases ih _ hc with hc | ⟨h, hl⟩
      · unfold addItem at hc
        split_ifs at hc with hexcluded
        · exact Or.inl hc
        · split at hc
          · exact Or.inl hc
          · next k hk =>
            rcases (AList.mem_insert its).mp hc with rfl | hc
            · exact Or.inr ⟨d, List.mem_cons_self, by simpa using hexcluded, hk⟩
            · exact Or.inl hc
      · exact Or.inr ⟨h, List.mem_cons_of_mem d hl.1, hl.2⟩
  exact (hgen ∅ hc).resolve_left (AList.notMem_empty c)

theorem mem_items_iff {c : String} : c ∈ items cfg devices ↔ ∃ h, Listed cfg devices h c := by
  refine ⟨exists_listed, fun ⟨h, hl⟩ => ?_⟩
  by_contra hc
  have hentry := entry_items cfg devices c h
  rw [if_pos hl, entry, AList.lookup_eq_none.mpr hc] at hentry
  cases hentry

/-! ## One file -/

theorem lookup_addHosts (these : Dict String This) (currentHosts : Dict String Yaml)
    (n : String) : (addHosts these currentHosts).lookup n
      = match these.lookup n with
        | none => currentHosts.lookup n
        | some this => if "terminal" ∈ this.type then currentHosts.lookup n
            else some (customisation currentHosts n) := by
  unfold addHosts
  -- one turn of the loop
  have hturn : ∀ (hosts : Dict String Yaml) (m : String), n ≠ m →
      (match these.lookup m with
        | none => hosts
        | some this => if "terminal" ∈ this.type then hosts
            else hosts.insert m (customisation currentHosts m)).lookup n = hosts.lookup n := by
    intro hosts m hne
    split
    · rfl
    · split_ifs
      · rfl
      · rw [Dict.lookup_insert_eq, if_neg hne]
  cases hn : these.lookup n with
  | none =>
    refine foldl_keep (fun hosts : Dict String Yaml => hosts.lookup n) (fun hosts m hm => ?_) _
    refine hturn hosts m (fun heq => ?_)
    subst heq
    exact AList.lookup_eq_none.mp hn (Dict.mem_sortedKeys.mp hm)
  | some this =>
    have hmem : n ∈ Dict.sortedKeys these :=
      Dict.mem_sortedKeys.mpr (Dict.mem_iff_lookup.mpr ⟨this, hn⟩)
    simp only
    split_ifs with hterminal
    · refine foldl_keep (fun hosts : Dict String Yaml => hosts.lookup n) (fun hosts m _ => ?_) _
      by_cases hne : n = m
      · subst hne
        rw [hn]
        simp only [if_pos hterminal]
      · exact hturn hosts m hne
    · refine foldl_set (fun hosts : Dict String Yaml => hosts.lookup n) hmem (fun hosts => ?_)
        (fun hosts m _ hne => hturn hosts m hne.symm) _
      rw [hn]
      simp only [if_neg hterminal]
      rw [Dict.lookup_insert_eq, if_pos rfl]

theorem lookup_removeHosts (these : Dict String This) (currentHosts hosts : Dict String Yaml)
    (n : String) : (removeHosts these currentHosts hosts).lookup n
      = if n ∈ currentHosts ∧ n ∉ these then none else hosts.lookup n := by
  unfold removeHosts
  have hmem : n ∈ currentHosts.keys.filter (· ∉ these.keys) ↔ n ∈ currentHosts ∧ n ∉ these := by
    rw [List.mem_filter, AList.mem_keys, decide_eq_true_iff, AList.mem_keys]
  rw [← if_congr hmem rfl rfl]
  generalize currentHosts.keys.filter (· ∉ these.keys) = l
  induction l generalizing hosts with
  | nil => rw [List.foldl_nil, if_neg List.not_mem_nil]
  | cons m l ih =>
    rw [List.foldl_cons, ih, Dict.lookup_erase_eq]
    by_cases hl : n ∈ l
    · rw [if_pos hl, if_pos (List.mem_cons_of_mem m hl)]
    · rw [if_neg hl]
      by_cases hm : n = m
      · rw [if_pos hm, if_pos (hm ▸ List.mem_cons_self)]
      · rw [if_neg hm, if_neg (fun h => (List.mem_cons.mp h).elim hm hl)]

/-- **One file**: a device keeps its customisation or is added, a terminal server stays as it is, and
other hosts are gone. -/
theorem updateFile_eq_ok {these : Dict String This} {file : Option File} :
    (∃ file', updateFile these file = .ok file') ↔ Usable file := by
  unfold updateFile
  rcases file with _ | _ | ⟨rest, _ | _ | _⟩ | _
  · exact iff_of_true ⟨_, rfl⟩ trivial
  · exact iff_of_true ⟨_, rfl⟩ trivial
  · exact iff_of_false (fun ⟨_, h⟩ => by cases h) id
  · exact iff_of_true ⟨_, rfl⟩ trivial
  · exact iff_of_false (fun ⟨_, h⟩ => by cases h) id
  · exact iff_of_false (fun ⟨_, h⟩ => by cases h) id

theorem lookup_hostsOf_updateFile {these : Dict String This} {file : Option File} {file' : File}
    (h : updateFile these file = .ok file') (n : String) :
    (hostsOf (some file')).lookup n = match these.lookup n with
      | none => none
      | some this => if "terminal" ∈ this.type then (hostsOf file).lookup n
          else some (customisation (hostsOf file) n) := by
  have hhosts : hostsOf (some file')
      = removeHosts these (hostsOf file) (addHosts these (hostsOf file)) := by
    rcases file with _ | _ | ⟨rest, _ | _ | _⟩ | _
    · cases h
      rfl
    · cases h
      rfl
    · cases h
    · cases h
      rfl
    · cases h
    · cases h
  rw [hhosts, lookup_removeHosts, lookup_addHosts]
  cases hn : these.lookup n with
  | none =>
    by_cases hmem : n ∈ hostsOf file
    · exact if_pos ⟨hmem, AList.lookup_eq_none.mp hn⟩
    · rw [if_neg (fun h => hmem h.1)]
      exact AList.lookup_eq_none.mpr hmem
  | some this =>
    exact if_neg (fun h => h.2 (Dict.mem_iff_lookup.mpr ⟨this, hn⟩))

/-! ## The loop over the files -/

/-- The files of the categories are written once each, and the others are left. -/
theorem writeFile_loop {l : List (String × Dict String This)} (hl : (l.map Prod.fst).Nodup)
    {files' : Files} (h : l.foldlM writeFile files = .ok files') :
    (∀ p ∈ l, ∃ file, updateFile p.2 (files.lookup p.1) = .ok file
        ∧ files'.lookup p.1 = some file)
      ∧ ∀ c, c ∉ l.map Prod.fst → files'.lookup c = files.lookup c := by
  induction l generalizing files with
  | nil =>
    cases h
    exact ⟨fun p hp => absurd hp List.not_mem_nil, fun _ _ => rfl⟩
  | cons p l ih =>
    obtain ⟨hp, hrest⟩ := List.nodup_cons.mp hl
    rw [List.foldlM_cons] at h
    obtain ⟨files₁, hfirst, h⟩ := Except.bind_eq_ok.mp h
    obtain ⟨file, hfile, hfiles₁⟩ := Except.bind_eq_ok.mp hfirst
    cases hfiles₁
    obtain ⟨hwritten, hleft⟩ := ih hrest h
    refine ⟨fun q hq => ?_, fun c hc => ?_⟩
    · rcases List.mem_cons.mp hq with rfl | hq
      · refine ⟨file, hfile, ?_⟩
        rw [hleft q.1 hp, Dict.lookup_insert_eq, if_pos rfl]
      · obtain ⟨file', hfile', hlook⟩ := hwritten q hq
        have hne : q.1 ≠ p.1 := fun heq => hp (heq ▸ List.mem_map_of_mem hq)
        rw [Dict.lookup_insert_eq, if_neg hne] at hfile'
        exact ⟨file', hfile', hlook⟩
    · rw [List.map_cons, List.mem_cons, not_or] at hc
      rw [hleft c hc.2, Dict.lookup_insert_eq, if_neg hc.1]

theorem exists_writeFile_loop {l : List (String × Dict String This)}
    (hl : (l.map Prod.fst).Nodup) (h : ∀ p ∈ l, Usable (files.lookup p.1)) :
    ∃ files', l.foldlM writeFile files = .ok files' := by
  induction l generalizing files with
  | nil => exact ⟨files, rfl⟩
  | cons p l ih =>
    obtain ⟨hp, hrest⟩ := List.nodup_cons.mp hl
    obtain ⟨file, hfile⟩ := updateFile_eq_ok.mpr (h p List.mem_cons_self)
    have husable : ∀ q ∈ l, Usable ((files.insert p.1 file).lookup q.1) := by
      intro q hq
      have hne : q.1 ≠ p.1 := fun heq => hp (heq ▸ List.mem_map_of_mem hq)
      rw [Dict.lookup_insert_eq, if_neg hne]
      exact h q (List.mem_cons_of_mem p hq)
    obtain ⟨files', hfiles'⟩ := ih hrest husable
    refine ⟨files', ?_⟩
    rw [List.foldlM_cons, writeFile, hfile]
    exact hfiles'

/-- The categories in the order in which they are visited. -/
theorem nodup_visited (cfg : Settings) (devices : List String) :
    ((cfg.order.order (items cfg devices).items).map Prod.fst).Nodup :=
  (items cfg devices).nodup_order_keys cfg.order

/-- **What a run makes of the files**: it succeeds when the files of all categories with a device
can be brought up to date, and then changes these. -/
theorem run_eq_ok_iff : (∃ files', run cfg devices files = .ok files')
    ↔ ∀ c h, Listed cfg devices h c → Usable (files.lookup c) := by
  constructor
  · rintro ⟨files', hrun⟩ c h hl
    obtain ⟨these, hthese⟩ := Dict.mem_iff_lookup.mp (mem_items_iff.mpr ⟨h, hl⟩)
    obtain ⟨hwritten, -⟩ := writeFile_loop (nodup_visited cfg devices) hrun
    obtain ⟨file, hfile, -⟩ := hwritten (c, these)
      ((cfg.order.mem_order).mpr (Dict.mem_items.mpr hthese))
    exact updateFile_eq_ok.mp ⟨file, hfile⟩
  · intro husable
    refine exists_writeFile_loop (nodup_visited cfg devices) (fun p hp => ?_)
    have hmem := Dict.mem_items.mp (cfg.order.mem_order.mp hp)
    obtain ⟨h, hl⟩ := exists_listed (Dict.mem_iff_lookup.mpr ⟨p.2, hmem⟩)
    exact husable p.1 h hl

theorem lookup_run {files' : Files} (hrun : run cfg devices files = .ok files') (c h : String) :
    (Listed cfg devices h c → (hostsOf (files'.lookup c)).lookup h
      = if cfg.isTerminal h then (hostsOf (files.lookup c)).lookup h
        else some (customisation (hostsOf (files.lookup c)) h))
      ∧ (¬ Listed cfg devices h c → (∃ h', Listed cfg devices h' c) →
        h ∉ hostsOf (files'.lookup c))
      ∧ ((∀ h', ¬ Listed cfg devices h' c) → files'.lookup c = files.lookup c) := by
  obtain ⟨hwritten, hleft⟩ := writeFile_loop (nodup_visited cfg devices) hrun
  have hentry := entry_items cfg devices c h
  -- the file of a category with a device
  have hfile : (∃ h', Listed cfg devices h' c) → ∃ these file,
      (items cfg devices).lookup c = some these
        ∧ updateFile these (files.lookup c) = .ok file ∧ files'.lookup c = some file := by
    rintro ⟨h', hl⟩
    obtain ⟨these, hthese⟩ := Dict.mem_iff_lookup.mp (mem_items_iff.mpr ⟨h', hl⟩)
    obtain ⟨file, hfile, hlook⟩ := hwritten (c, these)
      ((cfg.order.mem_order).mpr (Dict.mem_items.mpr hthese))
    exact ⟨these, file, hthese, hfile, hlook⟩
  refine ⟨fun hl => ?_, fun hnot hsome => ?_, fun hnone => ?_⟩
  · obtain ⟨these, file, hthese, hfile, hlook⟩ := hfile ⟨h, hl⟩
    rw [if_pos hl, entry, hthese, Option.getD_some] at hentry
    rw [hlook, lookup_hostsOf_updateFile hfile, hentry]
    rfl
  · obtain ⟨these, file, hthese, hfile, hlook⟩ := hfile hsome
    rw [if_neg hnot, entry, hthese, Option.getD_some] at hentry
    rw [← AList.lookup_eq_none, hlook, lookup_hostsOf_updateFile hfile, hentry]
  · refine hleft c (fun hc => ?_)
    obtain ⟨h', hl⟩ := exists_listed ((Dict.mem_order_keys cfg.order).mp hc)
    exact hnone h' hl

/-! ## The result -/

theorem customisation_eq_iff {hosts : Dict String Yaml} {h : String} {v : Yaml}
    (hv : hosts.lookup h = some v) :
    customisation hosts h = v ↔ v.truthy = true ∨ v = .null := by
  unfold customisation
  rw [hv]
  simp only
  split_ifs with htruthy
  · exact iff_of_true rfl (Or.inl htruthy)
  · constructor
    · rintro rfl
      exact Or.inr rfl
    · rintro (h | rfl)
      · exact absurd h htruthy
      · rfl

variable (cfg devices files) in
/-- **The device files**: the run succeeds with every device that is to be polled in the file of its
category only, as it was there before, and with no other host in any file, if and only if the files
are ready for it. -/
theorem settled_iff_ready :
    (∃ files', run cfg devices files = .ok files' ∧ Settled cfg devices files files')
      ↔ Ready cfg devices files := by
  constructor
  · rintro ⟨files', hrun, hsettled⟩
    refine ⟨run_eq_ok_iff.mp ⟨files', hrun⟩, fun c hnone h hmem => ?_,
      fun c h hl hterminal hmem => ?_, fun c h v hl hterminal hv => ?_⟩
    · obtain ⟨-, -, hleft⟩ := lookup_run hrun c h
      rw [← hleft hnone] at hmem
      exact hnone h ((hsettled.hosts c h).mp hmem).1
    · obtain ⟨hhere, -, -⟩ := lookup_run hrun c h
      have hlook := hhere hl
      rw [if_pos hterminal] at hlook
      obtain ⟨v, hv⟩ := Dict.mem_iff_lookup.mp hmem
      exact ((hsettled.hosts c h).mp (Dict.mem_iff_lookup.mpr ⟨v, hlook.trans hv⟩)).2 hterminal
    · obtain ⟨hhere, -, -⟩ := lookup_run hrun c h
      have hlook := hhere hl
      rw [if_neg hterminal, hsettled.kept c h v hl hterminal hv] at hlook
      exact (customisation_eq_iff hv).mp (Option.some.inj hlook).symm
  · intro hready
    obtain ⟨files', hrun⟩ := run_eq_ok_iff.mpr hready.usable
    refine ⟨files', hrun, fun c h => ?_, fun c h v hl hterminal hv => ?_⟩
    · obtain ⟨hhere, hgone, hleft⟩ := lookup_run hrun c h
      by_cases hl : Listed cfg devices h c
      · by_cases hterminal : cfg.isTerminal h
        · refine iff_of_false (fun hmem => ?_) (fun hand => hand.2 hterminal)
          obtain ⟨v, hv⟩ := Dict.mem_iff_lookup.mp hmem
          rw [hhere hl, if_pos hterminal] at hv
          exact hready.terminal c h hl hterminal (Dict.mem_iff_lookup.mpr ⟨v, hv⟩)
        · have hlook := hhere hl
          rw [if_neg hterminal] at hlook
          exact iff_of_true (Dict.mem_iff_lookup.mpr ⟨_, hlook⟩) ⟨hl, hterminal⟩
      · refine iff_of_false (fun hmem => ?_) (fun hand => hl hand.1)
        by_cases hsome : ∃ h', Listed cfg devices h' c
        · exact hgone hl hsome hmem
        · rw [hleft (not_exists.mp hsome)] at hmem
          exact hready.emptied c (not_exists.mp hsome) h hmem
    · obtain ⟨hhere, -, -⟩ := lookup_run hrun c h
      rw [hhere hl, if_neg hterminal, (customisation_eq_iff hv).mpr
        (hready.customised c h v hl hterminal hv)]

/-! ### A switch that has gone -/

/-- Switches are told from routers by their names. -/
def site : Settings where
  cat := {
    types := []
    groups := []
    categories := [("routers", Dict.ofList [("name", "^rtr-")]),
      ("switches", Dict.ofList [("name", "^swh-")])] }
  search := fun r name => (r.toList.drop 1).isPrefixOf name.toList
  excludeDevices := []

/-- The last switch is no longer listed. -/
def siteFiles : Files :=
  Dict.ofList [("switches", .document ⟨∅, some (.dict (Dict.ofList [("swh-b050", .null)]))⟩)]

/-- It stays in the file of the switches. -/
theorem not_settled_site : ¬ ∃ files', run site ["rtr-core1"] siteFiles = .ok files'
    ∧ Settled site ["rtr-core1"] siteFiles files' := by
  rw [settled_iff_ready]
  intro h
  have hcategory : (site.this "rtr-core1").categories.getLast? = some "routers" := by
    decide
  refine h.emptied "switches" (fun h' hl => ?_) "swh-b050" (by decide)
  rw [List.mem_singleton.mp hl.1] at hl
  have heq := hcategory.symm.trans hl.2.2
  exact absurd heq (by decide)

end NetworkDevices
