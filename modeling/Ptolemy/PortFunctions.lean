/-
# Port functions

The VLANs that a port carries, and whether it is a trunk, are worked out from the columns of a
group that other definitions have made: from the names of subinterfaces, or from the ports that a
switch lists for each VLAN.
-/
import Ptolemy.Grouping
import Ptolemy.LastDefinitions
import Ptolemy.AccessPoints
import Ptolemy.TrunkedVlans
import Ptolemy.Neighbours

namespace DriverMaps

/-! ## The functions -/

/-- A list of numbers. -/
def ofInts (l : List ℤ) : Value := .list (l.map toString)

/-- One port. -/
def writeFunction (group_data : Dataset) (this_data : Column) (p : Value × Value) : Column :=
  if p.1 ∈ (group_data.lookup "trunked_vlans").getD ∅ then
    AList.insert p.1 (.str "trunk") this_data
  else if p.1 ∈ (group_data.lookup "native_vlan").getD ∅ then
    AList.insert p.1 (.str "access") this_data
  else this_data

def determine_port_function (env : Env) (group_data : Dataset) : Except Exn Column :=
  match group_data.lookup "admin_status" with
  | none => .error (.keyError "admin_status")
  | some admin_status =>
      .ok ((env.order.order admin_status.items).foldl (writeFunction group_data) ∅)

/-- `match(r'^(?P<physical_interface>.*)\.(?P<vlan>\d+)$', k)`, with the number of the VLAN. -/
def subinterface (k : String) : Option (String × ℤ) :=
  let l := (Driver.withoutLineBreak k.toList).reverse
  match l.dropWhile Char.isDigit with
  | '.' :: s =>
      if '\n' ∈ s then none
      else (Text.nat? (l.takeWhile Char.isDigit).reverse).map
        (fun n : ℕ => (String.ofList s.reverse, (n : ℤ)))
  | _ => none

/-- One name; what the expression is matched against has to be a text. -/
def readSubinterface (this_data : Dict Value (List ℤ)) (p : Value × Value) :
    Except Exn (Dict Value (List ℤ)) :=
  if p.2 = .str "l2vlan" then
    match p.1 with
    | .str k => match subinterface k with
      | some (physical_interface, vlan) => .ok (this_data.append (.str physical_interface) vlan)
      | none => .ok this_data
    | _ => .error (.typeError "expected string or buffer")
  else .ok this_data

/-- The names are sorted as texts: another one is not matched, or ends the function. -/
def extract_l2vlan_trunking_vlans (group_data : Dataset) : Except Exn Column :=
  match group_data.lookup "type" with
  | none => .error
      (.refNotFound "type variables are required for function extract_l2vlan_trunking_vlans")
  | some type =>
      ((type.items.insertionSort (fun p q => p.1.toText ≤ q.1.toText)).foldlM readSubinterface
        ∅).map (fun this_data => this_data.mapVals (fun l => ofInts (l.insertionSort (· ≤ ·))))

/-- `for i in v`, with `str(i)`. -/
def iterTexts : Value → Except Exn (List String)
  | .list l => .ok l
  | .str s => .ok (s.toList.map (fun c => String.ofList [c]))
  | _ => .error (.typeError "object is not iterable")

/-- `int(v)`; `trunc` reads a float. -/
def int (trunc : String → Option ℤ) : Value → Except Exn ℤ
  | .bool b => .ok b.toInt
  | .int n => .ok n
  | .float t => match trunc t with
    | some n => .ok n
    | none => .error (.valueError "cannot convert float to integer")
  | .str s => match Text.int? s with
    | some n => .ok n
    | none => .error (.valueError ("invalid literal for int() with base 10: '" ++ s ++ "'"))
  | _ => .error (.typeError "int() argument must be a string or a number")

/-- One port of a VLAN. -/
def readPort (trunc : String → Option ℤ) (ifName : Column) (k : Value)
    (this_data : Dict Value (List ℤ)) (i : String) : Except Exn (Dict Value (List ℤ)) :=
  match ifName.lookup (.str i) with
  | none => .ok this_data
  | some name => do
      let name ← hashed name
      let vlan ← int trunc k
      .ok (this_data.append name vlan)

/-- The ports of one VLAN. -/
def readPorts (trunc : String → Option ℤ) (ifName : Column) (this_data : Dict Value (List ℤ))
    (p : Value × Value) : Except Exn (Dict Value (List ℤ)) := do
  let v ← iterTexts p.2
  v.foldlM (readPort trunc ifName p.1) this_data

def extract_dot1qVlanStaticEgressPorts (env : Env) (trunc : String → Option ℤ)
    (group_data : Dataset) : Except Exn Column :=
  match group_data.lookup "dot1qVlanStaticEgressPorts", group_data.lookup "ifName" with
  | some ports, some ifName =>
      ((env.order.order ports.items).foldlM (readPorts trunc ifName) ∅).map
        (fun this_data => this_data.mapVals ofInts)
  | _, _ => .error
      (.refNotFound "variable dot1qVlanStaticEgressPorts is required for function call")

/-- The octets that `i.encode('hex')` reads, going through a value. -/
def encoded : Value → Option (Option (List UInt8))
  | .none => some none
  | .str s => (Driver.octets s.toList).toOption.map some
  | .list l => (l.mapM (fun i => Driver.octets i.toList)).toOption.map (fun bs => some bs.flatten)
  | _ => none

def decodeVlans (v : Value) : Option Value :=
  (encoded v).map (fun v => ofInts ((Vlans.decode_vlanVlansOnPort v).map (fun n : ℕ => (n : ℤ))))

/-- The functions of this module under their names, besides others. -/
def portFunctions (env : Env) (trunc : String → Option ℤ) : Env :=
  { env with
    call := fun func v =>
      if func = "decode_vlanVlansOnPort" then decodeVlans v else env.call func v
    groupCall := fun func group_data =>
      if func = "determine_port_function" then
        (group_data, (determine_port_function env group_data).toOption)
      else if func = "extract_l2vlan_trunking_vlans" then
        (group_data, (extract_l2vlan_trunking_vlans group_data).toOption)
      else if func = "extract_dot1qVlanStaticEgressPorts" then
        (group_data, (extract_dot1qVlanStaticEgressPorts env trunc group_data).toOption)
      else env.groupCall func group_data }

/-! ## Names of subinterfaces -/

/-- A port, a point and the number of a VLAN. -/
def IsSubinterface (k p : String) (n : ℤ) : Prop :=
  '\n' ∉ p.toList ∧ ∃ ds m, (∀ c ∈ ds, c.isDigit = true) ∧ Text.nat? ds = some m ∧ (m : ℤ) = n
    ∧ Driver.withoutLineBreak k.toList = p.toList ++ '.' :: ds

theorem subinterface_iff {k p : String} {n : ℤ} :
    subinterface k = some (p, n) ↔ IsSubinterface k p n := by
  unfold subinterface IsSubinterface
  dsimp only
  constructor
  · intro h
    split at h
    · next s hdrop =>
      split_ifs at h with hbreak
      obtain ⟨m, hm, hpair⟩ := Option.map_eq_some_iff.mp h
      obtain ⟨rfl, rfl⟩ := Prod.ext_iff.mp hpair
      refine ⟨?_, _, m, fun c hc => ?_, hm, rfl, ?_⟩
      · rw [String.toList_ofList]
        exact fun hmem => hbreak (List.mem_reverse.mp hmem)
      · exact List.mem_takeWhile_imp (List.mem_reverse.mp hc)
      · have hparts := List.takeWhile_append_dropWhile (p := Char.isDigit)
          (l := (Driver.withoutLineBreak k.toList).reverse)
        rw [hdrop] at hparts
        have hback := congrArg List.reverse hparts
        rw [List.reverse_reverse, List.reverse_append, List.reverse_cons, List.append_assoc,
          List.singleton_append] at hback
        rw [String.toList_ofList, hback]
    · cases h
  · rintro ⟨hbreak, ds, m, hdigits, hm, rfl, hk⟩
    have hall : ∀ c ∈ ds.reverse, c.isDigit = true := fun c hc => hdigits c (List.mem_reverse.mp hc)
    rw [hk, List.reverse_append, List.reverse_cons, List.append_assoc, List.singleton_append,
      List.dropWhile_append_of_pos hall, List.takeWhile_append_of_pos hall,
      List.dropWhile_cons_of_neg (by decide), List.takeWhile_cons_of_neg (by decide)]
    refine (if_neg (fun hmem => hbreak (List.mem_reverse.mp hmem))).trans ?_
    rw [List.append_nil, List.reverse_reverse, List.reverse_reverse, hm, String.ofList_toList]
    rfl

/-- **Round trip**: the name of a subinterface is that of its port with the VLAN behind a point. -/
theorem subinterface_name {p : String} (h : '\n' ∉ p.toList) (n : ℕ) :
    subinterface (p ++ ("." ++ toString n)) = some (p, (n : ℤ)) := by
  refine subinterface_iff.mpr
    ⟨h, Nat.toDigits 10 n, n, fun c hc => ?_, Text.nat?_toDigits n, rfl, ?_⟩
  · exact Nat.isDigit_of_mem_toDigits (by decide) (by decide) hc
  · have hlist : (p ++ ("." ++ toString n)).toList
        = (p.toList ++ ['.']) ++ Nat.toDigits 10 n := by
      rw [String.toList_append, String.toList_append, List.append_assoc]
      show p.toList ++ ('.' :: n.repr.toList) = _
      rw [Nat.toList_repr]
      rfl
    unfold Driver.withoutLineBreak
    rw [hlist, List.getLast?_append_of_ne_nil _ Nat.toDigits_ne_nil, if_neg, List.append_assoc]
    · rfl
    · intro hlast
      have hdigit := Nat.isDigit_of_mem_toDigits (by decide) (by decide)
        (List.mem_of_getLast? hlast)
      exact absurd hdigit (by decide)

/-! ## What the functions return -/

/-- The VLAN of a port of a type, if its name is that of a subinterface. -/
def subinterfaces (k type : Value) : List (Value × ℤ) :=
  if type = .str "l2vlan" then match k with
    | .str k => ((subinterface k).map (fun s => (Value.str s.1, s.2))).toList
    | _ => []
  else []

theorem readSubinterface_eq {p : Value × Value}
    (h : p.2 = .str "l2vlan" → ∃ k, p.1 = .str k) (d : Dict Value (List ℤ)) :
    readSubinterface d p = .ok (d.appendAll (subinterfaces p.1 p.2)) := by
  unfold readSubinterface subinterfaces
  split_ifs with htype
  · obtain ⟨k, hk⟩ := h htype
    rw [hk]
    dsimp only
    cases subinterface k with
    | none => rfl
    | some s => rfl
  · rfl

theorem insertionSort_congr {l l' : List ℤ} (h : l.Perm l') :
    l.insertionSort (· ≤ ·) = l'.insertionSort (· ≤ ·) :=
  List.Perm.eq_of_sortedLE List.sortedLE_insertionSort List.sortedLE_insertionSort
    (((List.perm_insertionSort (· ≤ ·) l).trans h).trans
      (List.perm_insertionSort (· ≤ ·) l').symm)

/-- **Trunked VLANs by name**: a port has the numbers of its subinterfaces, sorted. -/
theorem extract_l2vlan_spec {group_data : Dataset} {type : Column}
    (htype : group_data.lookup "type" = some type)
    (htext : ∀ k, type.lookup k = some (.str "l2vlan") → ∃ s, k = .str s)
    {l : List (Value × ℤ)} (hl : l.Perm (type.items.flatMap (fun p => subinterfaces p.1 p.2))) :
    ∃ c, extract_l2vlan_trunking_vlans group_data = .ok c ∧ ∀ p,
      c.lookup p = if Dict.column l p = [] then none
        else some (ofInts ((Dict.column l p).insertionSort (· ≤ ·))) := by
  set sorted := type.items.insertionSort (fun p q => p.1.toText ≤ q.1.toText) with hsorted
  have hperm : sorted.Perm type.items := List.perm_insertionSort _ _
  have hloop : sorted.foldlM readSubinterface ∅
      = .ok (Dict.group (sorted.flatMap (fun p => subinterfaces p.1 p.2))) := by
    have hturn : ∀ p ∈ sorted, ∀ d,
        readSubinterface d p = .ok (Dict.appendAll d (subinterfaces p.1 p.2)) := by
      intro p hp d
      refine readSubinterface_eq (fun hl2vlan => htext p.1 ?_) d
      rw [← hl2vlan]
      exact Dict.mem_items.mp (hperm.mem_iff.mp (show (p.1, p.2) ∈ sorted from hp))
    exact Dict.foldlM_appendAll hturn ∅
  refine ⟨_, by
    unfold extract_l2vlan_trunking_vlans
    rw [htype]
    dsimp only
    rw [← hsorted, hloop]
    rfl, fun p => ?_⟩
  have hcolumn : (Dict.column (sorted.flatMap (fun p => subinterfaces p.1 p.2)) p).Perm
      (Dict.column l p) :=
    Dict.column_perm ((hperm.flatMap_right _).trans hl.symm) p
  rw [Dict.lookup_mapVals, Dict.lookup_group]
  by_cases hnil : Dict.column l p = []
  · rw [if_pos hnil, if_pos (hnil ▸ hcolumn).eq_nil, Option.map_none]
  · rw [if_neg hnil, if_neg (fun h => hnil (h ▸ hcolumn).symm.eq_nil), Option.map_some,
      insertionSort_congr hcolumn]

/-- **The function of a port**: a trunk carries VLANs of others, and another port is an access
port when it has a VLAN of its own. -/
def portFunction (group_data : Dataset) (p : Value) : Option Value :=
  if p ∈ (group_data.lookup "trunked_vlans").getD ∅ then some (.str "trunk")
  else if p ∈ (group_data.lookup "native_vlan").getD ∅ then some (.str "access")
  else none

theorem lookup_writeFunction (group_data : Dataset) (this_data : Column) (q : Value × Value)
    (p : Value) : (writeFunction group_data this_data q).lookup p
      = ((if q.1 = p then portFunction group_data p else none).or (this_data.lookup p)) := by
  unfold writeFunction portFunction
  by_cases hq : q.1 = p
  · subst hq
    rw [if_pos rfl]
    split_ifs
    · rw [AList.lookup_insert, Option.some_or]
    · rw [AList.lookup_insert, Option.some_or]
    · rw [Option.none_or]
  · rw [if_neg hq, Option.none_or]
    split_ifs
    · exact AList.lookup_insert_ne (Ne.symm hq)
    · exact AList.lookup_insert_ne (Ne.symm hq)
    · rfl

theorem determine_port_function_spec (env : Env) {group_data : Dataset} {admin_status : Column}
    (h : group_data.lookup "admin_status" = some admin_status) :
    ∃ c, determine_port_function env group_data = .ok c ∧ ∀ p,
      c.lookup p = if p ∈ admin_status then portFunction group_data p else none := by
  refine ⟨_, by unfold determine_port_function; rw [h], fun p => ?_⟩
  split_ifs with hp
  · obtain ⟨v, hv⟩ := Dict.mem_iff_lookup.mp hp
    cases hfunction : portFunction group_data p with
    | none =>
      refine (foldl_keep (fun this_data => AList.lookup p this_data)
        (fun this_data q _ => ?_) ∅).trans (AList.lookup_empty p)
      rw [lookup_writeFunction, hfunction, ite_self, Option.none_or]
    | some f =>
      refine foldl_set (fun this_data => AList.lookup p this_data)
        (env.order.mem_order.mpr (Dict.mem_items.mpr hv)) (fun this_data => ?_)
        (fun this_data q hq hne => ?_) ∅
      · rw [lookup_writeFunction, if_pos rfl, hfunction, Option.some_or]
      · have hlook := Dict.mem_items.mp (env.order.mem_order.mp (show (q.1, q.2) ∈ _ from hq))
        rw [lookup_writeFunction, if_neg, Option.none_or]
        rintro rfl
        exact hne (Prod.ext rfl (Option.some.inj (hlook.symm.trans hv)))
  · refine (foldl_keep (fun this_data => AList.lookup p this_data)
      (fun this_data q hq => ?_) ∅).trans (AList.lookup_empty p)
    have hlook := Dict.mem_items.mp (env.order.mem_order.mp (show (q.1, q.2) ∈ _ from hq))
    rw [lookup_writeFunction, if_neg, Option.none_or]
    rintro rfl
    exact hp (Dict.mem_iff_lookup.mpr ⟨_, hlook⟩)

end DriverMaps

namespace Gatherer

open DriverMaps

variable {env : Env} {trunc : String → Option ℤ} {parent : Results} {ignore : List String}

/-! ## The function of a port -/

/-- The numbers behind the names of the subinterfaces of a port. -/
def subinterfaceVlans (rows : Dict Value Column) (p : Value) : List ℤ :=
  Dict.column (rows.keys.flatMap
    (fun k => ((cell true rows "type" k).map (subinterfaces k)).getD [])) p

/-- The fields that tell of the VLANs and the function of a port. -/
def portFields : List String :=
  ["type", "admin_status", "native_vlan", "trunked_vlans", "function"]

/-- The rows of the ports agree with each other: a port has the VLANs of its subinterfaces, and
its function is as it has VLANs. -/
structure PortsAgree (rows : Dict Value Column) : Prop where
  trunked_vlans : ∀ p, cell true rows "trunked_vlans" p
    = if subinterfaceVlans rows p = [] then none
      else some (ofInts ((subinterfaceVlans rows p).insertionSort (· ≤ ·)))
  function : ∀ p, cell true rows "function" p =
    if (cell true rows "admin_status" p).isSome then
      if (cell true rows "trunked_vlans" p).isSome then some (.str "trunk")
      else if (cell true rows "native_vlan" p).isSome then some (.str "access")
      else none
    else none

/-- The subinterfaces are found in the rows as they are in the column of the types. -/
theorem perm_subinterfaces {rows : Dict Value Column} {type : Column}
    (hcell : ∀ k, cell true rows "type" k = (type.lookup k).map (shown true)) :
    (rows.keys.flatMap (fun k => ((cell true rows "type" k).map (subinterfaces k)).getD [])).Perm
      (type.items.flatMap (fun p => subinterfaces p.1 p.2)) := by
  have hshown : ∀ k v, subinterfaces k (shown true v) = subinterfaces k v := by
    intro k v
    unfold shown
    split_ifs with hnull
    · obtain ⟨-, rfl⟩ := hnull
      rfl
    · rfl
  have hrows : ∀ k, ((cell true rows "type" k).map (subinterfaces k)).getD []
      = ((type.lookup k).map (subinterfaces k)).getD [] := by
    intro k
    rw [hcell]
    cases type.lookup k with
    | none => rfl
    | some v => exact hshown k v
  have hitems : type.items.flatMap (fun p => subinterfaces p.1 p.2)
      = type.keys.flatMap (fun k => ((type.lookup k).map (subinterfaces k)).getD []) := by
    rw [← Dict.items_map_fst, List.flatMap_map]
    refine List.flatMap_congr (fun p hp => ?_)
    rw [Dict.mem_items.mp (show (p.1, p.2) ∈ type.items from hp)]
    rfl
  rw [hitems, List.flatMap_congr (fun k _ => hrows k)]
  refine Dict.flatMap_perm rows.keys_nodup type.keys_nodup (fun k hk => ?_)
  cases hlook : type.lookup k with
  | none =>
    rw [hlook] at hk
    exact absurd rfl hk
  | some v =>
    refine iff_of_true ?_ (AList.mem_keys.mp (Dict.mem_iff_lookup.mpr ⟨v, hlook⟩))
    have hsome := hcell k
    rw [hlook] at hsome
    obtain ⟨row, hrow, -⟩ := Option.bind_eq_some_iff.mp hsome
    exact AList.mem_keys.mp (Dict.mem_iff_lookup.mpr ⟨row, hrow⟩)

/-- The two definitions, on a dataset. -/
theorem foldlM_portItems {w w' : Work} {d : Dataset} (hd : w.result = .dataset d)
    (h : [("trunked_vlans", groupItem "extract_l2vlan_trunking_vlans"),
      ("function", groupItem "determine_port_function")].foldlM
        (processDef (portFunctions env trunc) parent) w = .ok w') :
    w'.result = .dataset (withColumn "function" (determine_port_function env
        (withColumn "trunked_vlans" (extract_l2vlan_trunking_vlans d) d))
      (withColumn "trunked_vlans" (extract_l2vlan_trunking_vlans d) d)) := by
  rw [List.foldlM_cons, processDef_function hd rfl, Except.ok_bind, List.foldlM_cons,
    processDef_function rfl rfl, Except.ok_bind] at h
  cases h
  rfl

/-- What the two definitions add to a dataset with types and states. -/
theorem portItems_spec (env : Env) {d : Dataset} {type admin_status : Column}
    (htype : d.lookup "type" = some type)
    (htext : ∀ k, type.lookup k = some (.str "l2vlan") → ∃ s, k = .str s)
    (hadmin : d.lookup "admin_status" = some admin_status) {l : List (Value × ℤ)}
    (hl : l.Perm (type.items.flatMap (fun p => subinterfaces p.1 p.2))) :
    ∃ trunked function : Column, withColumn "function" (determine_port_function env
        (withColumn "trunked_vlans" (extract_l2vlan_trunking_vlans d) d))
          (withColumn "trunked_vlans" (extract_l2vlan_trunking_vlans d) d)
        = AList.insert "function" function (AList.insert "trunked_vlans" trunked d)
      ∧ (∀ p, trunked.lookup p = if Dict.column l p = [] then none
        else some (ofInts ((Dict.column l p).insertionSort (· ≤ ·))))
      ∧ ∀ p, function.lookup p = if p ∈ admin_status then
          if p ∈ trunked then some (.str "trunk")
          else if p ∈ (d.lookup "native_vlan").getD ∅ then some (.str "access")
          else none
        else none := by
  obtain ⟨trunked, htrunked, hlookTrunked⟩ := extract_l2vlan_spec htype htext hl
  have hadmin₁ : (AList.insert "trunked_vlans" trunked d).lookup "admin_status"
      = some admin_status := (AList.lookup_insert_ne (by decide)).trans hadmin
  obtain ⟨function, hfunction, hlookFunction⟩ := determine_port_function_spec env hadmin₁
  refine ⟨trunked, function, ?_, hlookTrunked, fun p => ?_⟩
  · rw [htrunked]
    unfold withColumn
    rw [hfunction]
  · rw [hlookFunction]
    unfold portFunction
    rw [AList.lookup_insert, AList.lookup_insert_ne (by decide), Option.getD_some]

/-- **The rows of the ports agree**, where the last definitions of a group work out the VLANs from
the names of the subinterfaces and then the function of each port. -/
theorem ports_agree {driver : Driver} {result : Dataset} {results : Results}
    {before after : List (String × Group)} {g : String} {G : Group}
    {earlier : List (String × DriverMaps.Item)}
    (hgroups : env.order.order driver.items = before ++ (g, G) :: after)
    (hdefs : G.defs = earlier ++ [("trunked_vlans", groupItem "extract_l2vlan_trunking_vlans"),
      ("function", groupItem "determine_port_function")])
    (hkey : G.groupByKey = true) (hg : g ∉ ignore)
    (hclean : ∀ d ∈ G.defs, d.1 ∈ portFields → d.2.clean = false)
    (hafter : ∀ p ∈ after, p.1 ∉ ignore → ∀ d ∈ p.2.defs, ∀ f ∈ portFields,
      ¬ Touches (portFunctions env trunc) d f)
    (htype : "type" ∈ G.defs.map Prod.fst) (hadmin : "admin_status" ∈ G.defs.map Prod.fst)
    (hnative : "native_vlan" ∈ G.defs.map Prod.fst ∨ result.lookup "native_vlan" = none
      ∧ (∀ p ∈ before, p.1 ∉ ignore → ∀ d ∈ p.2.defs,
        ¬ Touches (portFunctions env trunc) d "native_vlan")
      ∧ ∀ d ∈ earlier, ¬ Touches (portFunctions env trunc) d "native_vlan")
    (h : process (portFunctions env trunc) parent ignore driver result = .ok results) :
    ∃ rows, results.lookup g = some rows
      ∧ ((∃ p, cell true rows "type" p ≠ none) → (∃ p, cell true rows "admin_status" p ≠ none) →
        (∀ k, cell true rows "type" k = some (.str "l2vlan") → ∃ s, k = .str s) →
        PortsAgree rows) := by
  obtain ⟨w, w', rows, d, d', hd, hd', hlater, hrows, hcells, hnot, hkept⟩ := process_last
    (show (portFunctions env trunc).order.order driver.items = _ from hgroups) hdefs hg h
  rw [hkey] at hcells hnot
  refine ⟨rows, hrows, fun htyped hports htext => ?_⟩
  have hcell : ∀ f ∈ portFields, f ∈ G.defs.map Prod.fst → ∀ k, cell true rows f k
      = (((d'.lookup f).getD ∅).lookup k).map (shown true) := fun f hport hf =>
    hcells f hf (fun d hd heq => hclean d hd (heq ▸ hport))
      (fun p hp hi d hd => hafter p hp hi d hd f hport)
  have hcolumn : ∀ f ∈ portFields, f ∈ G.defs.map Prod.fst → (∃ p, cell true rows f p ≠ none) →
      ∃ c, d'.lookup f = some c ∧ ∀ k, cell true rows f k = (c.lookup k).map (shown true) := by
    rintro f hport hf ⟨p, hp⟩
    have hshown := hcell f hport hf
    cases hlook : d'.lookup f with
    | none =>
      rw [hshown, hlook] at hp
      exact absurd rfl hp
    | some c =>
      rw [hlook] at hshown
      exact ⟨c, rfl, hshown⟩
  have hend := foldlM_portItems hd hlater
  rw [hd'] at hend
  have hsame : ∀ f, f ≠ "trunked_vlans" → f ≠ "function" → d'.lookup f = d.lookup f := by
    intro f htrunked hfunction
    rw [Data.dataset.inj hend, lookup_withColumn hfunction, lookup_withColumn htrunked]
  obtain ⟨type, hlookType, hcellType⟩ := hcolumn "type" (by decide) htype htyped
  obtain ⟨admin, hlookAdmin, hcellAdmin⟩ := hcolumn "admin_status" (by decide) hadmin hports
  rw [hsame "type" (by decide) (by decide)] at hlookType
  rw [hsame "admin_status" (by decide) (by decide)] at hlookAdmin
  obtain ⟨trunked, function, hadded, hlookTrunked, hlookFunction⟩ := portItems_spec env hlookType
    (fun k hk => htext k (by rw [hcellType, hk]; rfl)) hlookAdmin (perm_subinterfaces hcellType)
  rw [hadded] at hend
  obtain rfl := Data.dataset.inj hend
  have hcellTrunked : ∀ p, cell true rows "trunked_vlans" p
      = (trunked.lookup p).map (shown true) := by
    intro p
    rw [hcell "trunked_vlans" (by decide) (by rw [hdefs]; simp),
      AList.lookup_insert_ne (by decide), AList.lookup_insert, Option.getD_some]
  have hmem : ∀ {f : String} {c : Column},
      (∀ k, cell true rows f k = (c.lookup k).map (shown true)) →
        ∀ p, (cell true rows f p).isSome = true ↔ p ∈ c := by
    intro f c hc p
    rw [hc, Option.isSome_map, AList.lookup_isSome]
  have hcellNative : ∀ p, (cell true rows "native_vlan" p).isSome = true
      ↔ p ∈ (d.lookup "native_vlan").getD ∅ := by
    by_cases hfield : "native_vlan" ∈ G.defs.map Prod.fst
    · refine hmem (fun k => ?_)
      rw [hcell "native_vlan" (by decide) hfield, hsame "native_vlan" (by decide) (by decide)]
    · intro p
      obtain ⟨hnone, hbefore, hearlier⟩ := hnative.resolve_left hfield
      rw [(hkept "native_vlan" hbefore hearlier).1, hnone, hnot "native_vlan" hfield]
      exact iff_of_false Bool.false_ne_true (AList.notMem_empty p)
  refine ⟨fun p => ?_, fun p => ?_⟩
  · rw [hcellTrunked, hlookTrunked]
    unfold subinterfaceVlans
    split_ifs
    · rfl
    · rfl
  · rw [hcell "function" (by decide) (by rw [hdefs]; simp), AList.lookup_insert,
      Option.getD_some, hlookFunction]
    simp only [hmem hcellAdmin, hmem hcellTrunked, hcellNative]
    split_ifs
    all_goals rfl

/-! ### A port with subinterfaces -/

def portGroup : Group where
  groupByKey := true
  defs := [("type", { ref := some "ifType" }), ("admin_status", { ref := some "ifAdminStatus" })]
    ++ [("trunked_vlans", groupItem "extract_l2vlan_trunking_vlans"),
      ("function", groupItem "determine_port_function")]

/-- Two VLANs are on the first port. -/
def portColumns : Dataset :=
  Dict.ofList [
    ("ifType", Dict.ofList [(.str "Gi1", .str "ethernetCsmacd"), (.str "Gi1.20", .str "l2vlan"),
      (.str "Gi1.3", .str "l2vlan"), (.str "Gi2", .str "ethernetCsmacd")]),
    ("ifAdminStatus", Dict.ofList [(.str "Gi1", .bool true), (.str "Gi2", .bool false)])]

def isText : Value → Bool
  | .str _ => true
  | _ => false

/-- A definition without maps touches its own column and the one that it takes. -/
theorem not_touches_of_ne {f r x : String} (hf : x ≠ f) (hr : r ≠ x) :
    ¬ Touches env (f, { ref := some r }) x := by
  rintro (hfield | href | ⟨m, hm, -⟩)
  · exact hf hfield
  · exact hr (Option.some.inj href)
  · cases hm

/-- The rows of a port with subinterfaces. -/
theorem ports_agree_subinterfaces :
    ∃ results rows, process (portFunctions bareEnv (fun _ => none)) ∅ []
        (Dict.ofList [("status", portGroup)]) portColumns = .ok results
      ∧ results.lookup "status" = some rows ∧ PortsAgree rows := by
  have hok : ((process (portFunctions bareEnv (fun _ => none)) ∅ []
      (Dict.ofList [("status", portGroup)]) portColumns).toOption.bind
        (AList.lookup "status")).any (fun rows => (cell true rows "type" (.str "Gi1")).isSome
          && (cell true rows "admin_status" (.str "Gi1")).isSome && rows.keys.all isText)
        = true := by
    decide +kernel
  cases h : process (portFunctions bareEnv (fun _ => none)) ∅ []
      (Dict.ofList [("status", portGroup)]) portColumns with
  | error e =>
    rw [h] at hok
    cases hok
  | ok results =>
    have hplain : ∀ d ∈ [("type", { ref := some "ifType" }),
        ("admin_status", ({ ref := some "ifAdminStatus" } : DriverMaps.Item))],
          ¬ Touches (portFunctions bareEnv (fun _ => none)) d "native_vlan" := by
      intro d hd
      rcases List.mem_cons.mp hd with rfl | hd
      · exact not_touches_of_ne (by decide) (by decide)
      · rw [List.mem_singleton.mp hd]
        exact not_touches_of_ne (by decide) (by decide)
    obtain ⟨rows, hrows, hagree⟩ := ports_agree
      (show bareEnv.order.order (Dict.items _) = [] ++ ("status", portGroup) :: [] from rfl) rfl
      rfl List.not_mem_nil (by decide) (fun p hp => absurd hp List.not_mem_nil) (by decide)
      (by decide) (Or.inr ⟨by decide, fun p hp => absurd hp List.not_mem_nil, hplain⟩) h
    rw [h] at hok
    simp only [Except.toOption, Option.bind_some, hrows, Option.any_some, Bool.and_eq_true] at hok
    obtain ⟨⟨htype, hadmin⟩, htext⟩ := hok
    refine ⟨results, rows, rfl, hrows, hagree ⟨_, Option.isSome_iff_ne_none.mp htype⟩
      ⟨_, Option.isSome_iff_ne_none.mp hadmin⟩ (fun k hk => ?_)⟩
    obtain ⟨row, hrow, -⟩ := Option.bind_eq_some_iff.mp hk
    have hkey := List.all_eq_true.mp htext k
      (AList.mem_keys.mp (Dict.mem_iff_lookup.mpr ⟨row, hrow⟩))
    cases k with
    | str s => exact ⟨s, rfl⟩
    | _ => cases hkey

/-! ## The ports of a VLAN -/

/-- The definition of the ports of each VLAN, from their bitmaps. -/
def egressItem : DriverMaps.Item where
  ref := some "dot1qVlanStaticEgressPorts"
  maps := [.dict [.function "value" "decode_vlanVlansOnPort"]]
  clean := true

/-- The switch has a bit for a port in the bitmap of a VLAN. -/
def Carries (trunc : String → Option ℤ) (bitmaps names : Column) (n : ℤ) (p : Value) : Prop :=
  ∃ k s bs i, bitmaps.lookup k = some (.str s) ∧ int trunc k = .ok n
    ∧ Driver.octets s.toList = .ok bs ∧ Vlans.BitSet bs i ∧ i ∉ Vlans.IGNORE_VLANS
    ∧ names.lookup (.str (toString (i : ℤ))) = some p

/-- Bitmaps that can be read: texts of octets of numbered VLANs. -/
structure Bitmaps (trunc : String → Option ℤ) (bitmaps : Column) : Prop where
  number : ∀ k ∈ bitmaps, ∃ n, int trunc k = .ok n
  octets : ∀ k v, bitmaps.lookup k = some v →
    ∃ s bs, v = .str s ∧ Driver.octets s.toList = .ok bs ∧ Vlans.Chosen bs

theorem decodeVlans_str {s : String} {bs : List UInt8} (h : Driver.octets s.toList = .ok bs) :
    decodeVlans (.str s)
      = some (ofInts ((Vlans.decode_vlanVlansOnPort (some bs)).map (fun n : ℕ => (n : ℤ)))) := by
  show ((Driver.octets s.toList).toOption.map some).map _ = _
  rw [h]
  rfl

/-- The columns before the last definition. -/
theorem processDef_egress {w w' : Work} {d : Dataset} {bitmaps : Column}
    (hd : w.result = .dataset d) (hlook : d.lookup "dot1qVlanStaticEgressPorts" = some bitmaps)
    (hcount : (w.wantedRefsCount.lookup "dot1qVlanStaticEgressPorts").getD 0 = 1)
    (hbitmaps : Bitmaps trunc bitmaps)
    (h : processDef (portFunctions env trunc) parent w ("dot1qVlanStaticEgressPorts", egressItem)
      = .ok w') :
    ∃ d' decoded, w'.result = .dataset d' ∧ d'.lookup "ifName" = d.lookup "ifName"
      ∧ d'.lookup "dot1qVlanStaticEgressPorts" = some decoded
      ∧ ∀ k, decoded.lookup k = (bitmaps.lookup k).bind decodeVlans := by
  have hflat : egressItem.flat = [.function "value" "decode_vlanVlansOnPort"] := rfl
  unfold processDef at h
  obtain ⟨out, hout, h⟩ := Except.bind_eq_ok.mp h
  rw [hd] at hout
  obtain ⟨taken, htake, -⟩ := Except.bind_eq_ok.mp hout
  obtain ⟨d₁, rfl, ⟨rfl, -⟩ | ⟨r, -, hr, hne, -⟩⟩ := takeRef_cases htake
  · obtain ⟨d', decoded, rfl, hdecoded, himage⟩ := remap_image
      (fun m hm => by rw [hflat] at hm; rw [List.mem_singleton.mp hm]; rfl) hout htake hlook
    obtain ⟨d₂, heq, hname⟩ := remap_frame (x := "ifName") (fun htouch => by
      rcases htouch with hfield | href | ⟨m, hm, hwrites⟩
      · exact absurd hfield (by decide)
      · exact absurd href (by decide)
      · rw [hflat] at hm
        rw [List.mem_singleton.mp hm] at hwrites
        rcases hwrites with ⟨hy, -⟩ | ⟨hy, -⟩ | hy | hy
        all_goals exact absurd hy (by decide)) hout
    cases heq
    refine ⟨d', decoded, countDown_last (w := { w with result := .dataset d' }) hcount h, hname,
      hdecoded, fun k => ?_⟩
    have hk := himage k
    cases hlookup : bitmaps.lookup k with
    | none =>
      rw [hlookup] at hk
      exact hk
    | some v =>
      rw [hlookup, hflat] at hk
      obtain ⟨s, bs, rfl, hoctets, -⟩ := hbitmaps.octets k v hlookup
      have hvalue : newValues (portFunctions env trunc)
          [.function "value" "decode_vlanVlansOnPort"] k (.str s)
            = .ok (some ((decodeVlans (.str s)).getD (.str s))) := rfl
      dsimp only at hk
      rw [hvalue, decodeVlans_str hoctets] at hk
      rw [Option.bind_some, decodeVlans_str hoctets]
      exact (Except.ok.inj hk).symm
  · exact absurd (Option.some.inj hr).symm hne

/-- The ports that are listed for a VLAN. -/
def egressVlans (trunc : String → Option ℤ) (names : Column) (p : Value × Value) :
    List (Value × ℤ) :=
  ((iterTexts p.2).toOption.getD []).flatMap (fun i => ((names.lookup (.str i)).map
    (fun name => (name, (int trunc p.1).toOption.getD 0))).toList)

/-- The VLANs of a port, in the order in which they are gone through. -/
def listedVlans (env : Env) (trunc : String → Option ℤ) (names ports : Column) : Value → List ℤ :=
  Dict.column ((env.order.order ports.items).flatMap (egressVlans trunc names))

theorem mem_listedVlans {names ports : Column} {p : Value} {n : ℤ} :
    n ∈ listedVlans env trunc names ports p ↔ ∃ k v, ports.lookup k = some v
      ∧ ∃ i ∈ (iterTexts v).toOption.getD [], names.lookup (.str i) = some p
        ∧ (int trunc k).toOption.getD 0 = n := by
  unfold listedVlans egressVlans
  rw [Dict.mem_column, List.mem_flatMap]
  constructor
  · rintro ⟨q, hq, hmem⟩
    obtain ⟨i, hi, hmem⟩ := List.mem_flatMap.mp hmem
    obtain ⟨name, hname, hpair⟩ := Option.map_eq_some_iff.mp (Option.mem_toList.mp hmem)
    obtain ⟨rfl, hn⟩ := Prod.ext_iff.mp hpair
    exact ⟨q.1, q.2, Dict.mem_items.mp (env.order.mem_order.mp hq), i, hi, hname, hn⟩
  · rintro ⟨k, v, hv, i, hi, hname, rfl⟩
    refine ⟨(k, v), env.order.mem_order.mpr (Dict.mem_items.mpr hv), List.mem_flatMap.mpr
      ⟨i, hi, Option.mem_toList.mpr ?_⟩⟩
    rw [hname]
    rfl

theorem readPorts_eq {names : Column} {p : Value × Value} {l : List String} {n : ℤ}
    (hnames : ∀ k v, names.lookup k = some v → ∃ s, v = .str s) (hl : iterTexts p.2 = .ok l)
    (hn : int trunc p.1 = .ok n) (d : Dict Value (List ℤ)) :
    readPorts trunc names d p = .ok (Dict.appendAll d (egressVlans trunc names p)) := by
  unfold readPorts egressVlans
  rw [hl, hn, Except.ok_bind]
  refine Dict.foldlM_appendAll (fun i _ d => ?_) d
  unfold readPort
  cases hname : names.lookup (.str i) with
  | none => rfl
  | some name =>
    obtain ⟨s, rfl⟩ := hnames _ _ hname
    dsimp only
    rw [hn]
    rfl

/-- **Trunked VLANs by bitmap**: a port has the VLANs that it is listed for. -/
theorem extract_dot1q_spec {group_data : Dataset} {ports names : Column}
    (hports : group_data.lookup "dot1qVlanStaticEgressPorts" = some ports)
    (hifName : group_data.lookup "ifName" = some names)
    (hnames : ∀ k v, names.lookup k = some v → ∃ s, v = .str s)
    (hread : ∀ k v, ports.lookup k = some v →
      ∃ l n, iterTexts v = .ok l ∧ int trunc k = .ok n) :
    ∃ c, extract_dot1qVlanStaticEgressPorts env trunc group_data = .ok c
      ∧ ∀ p, c.lookup p = if listedVlans env trunc names ports p = [] then none
        else some (ofInts (listedVlans env trunc names ports p)) := by
  have hloop : (env.order.order ports.items).foldlM (readPorts trunc names) ∅
      = .ok (Dict.group ((env.order.order ports.items).flatMap (egressVlans trunc names))) := by
    refine Dict.foldlM_appendAll (fun p hp d => ?_) ∅
    obtain ⟨l, n, hl, hn⟩ := hread p.1 p.2
      (Dict.mem_items.mp (env.order.mem_order.mp (show (p.1, p.2) ∈ _ from hp)))
    exact readPorts_eq hnames hl hn d
  refine ⟨_, by
    unfold extract_dot1qVlanStaticEgressPorts
    rw [hports, hifName]
    dsimp only
    rw [hloop]
    rfl, fun p => ?_⟩
  rw [Dict.lookup_mapVals, Dict.lookup_group]
  unfold listedVlans
  split_ifs
  · rfl
  · rfl

/-- **The ports of the VLANs**, where the last definitions of a group decode the bitmaps of the
VLANs and turn them over: the output has each VLAN at the ports that carry it, and at no others. -/
theorem egress_trunked {driver : Driver} {result : Dataset} {results : Results}
    {before after : List (String × Group)} {g : String} {G : Group}
    {earlier : List (String × DriverMaps.Item)} {bitmaps names : Column}
    (hgroups : env.order.order driver.items = before ++ (g, G) :: after)
    (hdefs : G.defs = earlier ++ [("dot1qVlanStaticEgressPorts", egressItem),
      ("trunked_vlans", groupItem "extract_dot1qVlanStaticEgressPorts")])
    (hg : g ∉ ignore) (hclean : ∀ d ∈ G.defs, d.1 = "trunked_vlans" → d.2.clean = false)
    (hbefore : ∀ p ∈ before, p.1 ∉ ignore → ∀ d ∈ p.2.defs,
      ∀ f ∈ ["dot1qVlanStaticEgressPorts", "ifName"], ¬ Touches (portFunctions env trunc) d f)
    (hearlier : ∀ d ∈ earlier, ∀ f ∈ ["dot1qVlanStaticEgressPorts", "ifName"],
      ¬ Touches (portFunctions env trunc) d f)
    (hafter : ∀ p ∈ after, p.1 ∉ ignore → ∀ d ∈ p.2.defs,
      ¬ Touches (portFunctions env trunc) d "trunked_vlans")
    (hlook : result.lookup "dot1qVlanStaticEgressPorts" = some bitmaps)
    (hifName : result.lookup "ifName" = some names) (hbitmaps : Bitmaps trunc bitmaps)
    (hnames : ∀ k v, names.lookup k = some v → ∃ s, v = .str s)
    (h : process (portFunctions env trunc) parent ignore driver result = .ok results) :
    ∃ rows, ∃ vlans : Value → List ℤ, results.lookup g = some rows
      ∧ (∀ p, cell G.groupByKey rows "trunked_vlans" p
        = if vlans p = [] then none else some (ofInts (vlans p)))
      ∧ ∀ p n, n ∈ vlans p ↔ Carries trunc bitmaps names n p := by
  obtain ⟨w, w', rows, d, d', hd, hd', hlater, hrows, hcells, -, hkept⟩ := process_last
    (show (portFunctions env trunc).order.order driver.items = _ from hgroups) hdefs hg h
  obtain ⟨hsame, hcount⟩ := hkept "dot1qVlanStaticEgressPorts"
    (fun p hp hi d hd => hbefore p hp hi d hd _ List.mem_cons_self)
    (fun d hd => hearlier d hd _ List.mem_cons_self)
  obtain ⟨hsameName, -⟩ := hkept "ifName"
    (fun p hp hi d hd => hbefore p hp hi d hd _ (List.mem_cons_of_mem _ List.mem_cons_self))
    (fun d hd => hearlier d hd _ (List.mem_cons_of_mem _ List.mem_cons_self))
  rw [List.foldlM_cons] at hlater
  obtain ⟨w₁, hfirst, hlast⟩ := Except.bind_eq_ok.mp hlater
  obtain ⟨d₁, decoded, hd₁, hname, hdecoded, hvalues⟩ :=
    processDef_egress hd (hsame.trans hlook) hcount hbitmaps hfirst
  have hread : ∀ k v, decoded.lookup k = some v →
      ∃ s bs n, bitmaps.lookup k = some (.str s) ∧ Driver.octets s.toList = .ok bs
        ∧ Vlans.Chosen bs ∧ int trunc k = .ok n
        ∧ v = ofInts ((Vlans.decode_vlanVlansOnPort (some bs)).map (fun n : ℕ => (n : ℤ))) := by
    intro k v hk
    rw [hvalues] at hk
    obtain ⟨raw, hraw, hdecode⟩ := Option.bind_eq_some_iff.mp hk
    obtain ⟨s, bs, rfl, hoctets, hchosen⟩ := hbitmaps.octets k raw hraw
    obtain ⟨n, hn⟩ := hbitmaps.number k (Dict.mem_iff_lookup.mpr ⟨_, hraw⟩)
    rw [decodeVlans_str hoctets] at hdecode
    exact ⟨s, bs, n, hraw, hoctets, hchosen, hn, (Option.some.inj hdecode).symm⟩
  obtain ⟨c, hc, hlookc⟩ := extract_dot1q_spec hdecoded (hname.trans (hsameName.trans hifName))
    hnames (fun k v hk => by
      obtain ⟨s, bs, n, -, -, -, hn, rfl⟩ := hread k v hk
      exact ⟨_, n, rfl, hn⟩)
  rw [List.foldlM_cons, processDef_function hd₁ rfl, Except.ok_bind, hc] at hlast
  cases hlast
  obtain rfl := Data.dataset.inj hd'
  refine ⟨rows, listedVlans env trunc names decoded, hrows, fun p => ?_, fun p n => ?_⟩
  · rw [hcells "trunked_vlans" (by rw [hdefs]; simp) hclean hafter]
    unfold withColumn
    rw [AList.lookup_insert, Option.getD_some, hlookc]
    split_ifs
    · rfl
    · rw [Option.map_some, shown, if_neg (fun hnull => nomatch hnull.2)]
  · rw [mem_listedVlans]
    constructor
    · rintro ⟨k, v, hk, text, htext, hp, rfl⟩
      obtain ⟨s, bs, n, hraw, hoctets, hchosen, hn, rfl⟩ := hread k v hk
      obtain ⟨m, hm, rfl⟩ := List.mem_map.mp htext
      obtain ⟨i, hi, rfl⟩ := List.mem_map.mp hm
      obtain ⟨hbit, hfree⟩ := (Vlans.mem_decode hchosen i).mp hi
      rw [hn]
      exact ⟨k, s, bs, i, hraw, hn, hoctets, hbit, hfree, hp⟩
    · rintro ⟨k, s, bs, i, hraw, hn, hoctets, hbit, hfree, hp⟩
      have hk := hvalues k
      rw [hraw, Option.bind_some, decodeVlans_str hoctets] at hk
      obtain ⟨s', bs', -, hraw', hoctets', hchosen, -, -⟩ := hread k _ hk
      rw [hraw] at hraw'
      cases hraw'
      rw [hoctets] at hoctets'
      cases hoctets'
      refine ⟨k, _, hk, toString (i : ℤ), ?_, hp, by rw [hn]; rfl⟩
      exact List.mem_map_of_mem (List.mem_map_of_mem
        ((Vlans.mem_decode hchosen i).mpr ⟨hbit, hfree⟩))

/-! ### A switch that lists its ports -/

def egressGroup : Group where
  groupByKey := true
  defs := [("native_vlan", { ref := some "dot1qPvid" })]
    ++ [("dot1qVlanStaticEgressPorts", egressItem),
      ("trunked_vlans", groupItem "extract_dot1qVlanStaticEgressPorts")]

/-- The bits of two ports are set for the first VLAN, and that of one for the second. -/
def sampleBitmaps : Column := Dict.ofList [(.str "10", .str "P"), (.str "20", .str "@")]

def sampleNames : Column := Dict.ofList [(.str "1", .str "Gi1/1"), (.str "3", .str "Gi1/3")]

def egressColumns : Dataset :=
  Dict.ofList [("dot1qPvid", Dict.ofList [(.str "Gi1/1", .int 1)]),
    ("dot1qVlanStaticEgressPorts", sampleBitmaps), ("ifName", sampleNames)]

theorem bitmaps_sample : Bitmaps (fun _ => none) sampleBitmaps where
  number := fun k hk => by
    have hmem : k ∈ [Value.str "20", .str "10"] := AList.mem_keys.mp hk
    rcases List.mem_cons.mp hmem with rfl | hmem
    · exact ⟨20, rfl⟩
    · rw [List.mem_singleton.mp hmem]
      exact ⟨10, rfl⟩
  octets := fun k v hk => by
    have hmem : (k, v) ∈ [(Value.str "20", Value.str "@"), (.str "10", .str "P")] :=
      Dict.mem_items.mpr hk
    rcases List.mem_cons.mp hmem with heq | hmem
    · cases heq
      exact ⟨"@", [64], rfl, rfl, by unfold Vlans.Chosen; decide⟩
    · cases List.mem_singleton.mp hmem
      exact ⟨"P", [80], rfl, rfl, by unfold Vlans.Chosen; decide⟩

/-- The VLANs of the ports of a switch. -/
theorem egress_trunked_switch :
    ∃ results rows, ∃ vlans : Value → List ℤ,
      process (portFunctions bareEnv (fun _ => none)) ∅ []
        (Dict.ofList [("status", egressGroup)]) egressColumns = .ok results
      ∧ results.lookup "status" = some rows
      ∧ (∀ p, cell true rows "trunked_vlans" p
        = if vlans p = [] then none else some (ofInts (vlans p)))
      ∧ ∀ p n, n ∈ vlans p ↔ Carries (fun _ => none) sampleBitmaps sampleNames n p := by
  have hok : (process (portFunctions bareEnv (fun _ => none)) ∅ []
      (Dict.ofList [("status", egressGroup)]) egressColumns).toOption.isSome = true := by
    decide +kernel
  cases h : process (portFunctions bareEnv (fun _ => none)) ∅ []
      (Dict.ofList [("status", egressGroup)]) egressColumns with
  | error e =>
    rw [h] at hok
    cases hok
  | ok results =>
    have hplain : ∀ d ∈ [("native_vlan", ({ ref := some "dot1qPvid" } : DriverMaps.Item))],
        ∀ f ∈ ["dot1qVlanStaticEgressPorts", "ifName"],
          ¬ Touches (portFunctions bareEnv (fun _ => none)) d f := by
      intro d hd f hf
      rw [List.mem_singleton.mp hd]
      rcases List.mem_cons.mp hf with rfl | hf
      · exact not_touches_of_ne (by decide) (by decide)
      · rw [List.mem_singleton.mp hf]
        exact not_touches_of_ne (by decide) (by decide)
    have hnames : ∀ k v, sampleNames.lookup k = some v → ∃ s, v = .str s := by
      intro k v hk
      have hmem : (k, v) ∈ [(Value.str "3", Value.str "Gi1/3"), (.str "1", .str "Gi1/1")] :=
        Dict.mem_items.mpr hk
      rcases List.mem_cons.mp hmem with heq | hmem
      · cases heq
        exact ⟨_, rfl⟩
      · cases List.mem_singleton.mp hmem
        exact ⟨_, rfl⟩
    obtain ⟨rows, vlans, hrows, hcells, hvlans⟩ := egress_trunked
      (show bareEnv.order.order (Dict.items _) = [] ++ ("status", egressGroup) :: [] from rfl) rfl
      List.not_mem_nil (by decide) (fun p hp => absurd hp List.not_mem_nil) hplain
      (fun p hp => absurd hp List.not_mem_nil) rfl rfl bitmaps_sample hnames h
    exact ⟨results, rows, vlans, rfl, hrows, hcells, hvlans⟩

end Gatherer
