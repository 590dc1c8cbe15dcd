/-
# The partitions of a table

A table may be split by the value of a field.  `table_name` looks for the value in the context
and, when it is not there, in the data, where all items have to have the same.  Where the value is
found in the context, a table with a fixed number of partitions has it hashed, and the table that
the partition is inherited from is returned too.  Where it is found in the data, neither is done:
`ensure_table` creates a table that inherits from none, and whose name has the value itself.
-/
import Ptolemy.PostgresSteps

namespace Postgres

variable {κ : Type}

/-- A value of the partition field: the context of one call has it, and that of another one does
not, but every item of its data does. -/
structure Placed (cfg : Config κ) (spec group field : String) (v : Value)
    (context context' : Context) (data' : List Item) : Prop where
  partitioned : cfg.partitions.lookup (_tableName spec group) = some field
  inContext : context.lookup field = some v
  notInContext : context'.lookup field = none
  items : data' ≠ []
  inData : ∀ d ∈ data', d.lookup field = some v

/-- Both calls get the same table, and the same one that it is inherited from. -/
def SamePartition (cfg : Config κ) (spec group : String) (context context' : Context)
    (data data' : List Item) : Prop :=
  ∃ t, tableName cfg spec group context data = .ok t
    ∧ tableName cfg spec group context' data' = .ok t

variable {cfg : Config κ} {spec group field : String} {v : Value} {context context' : Context}
  {data data' : List Item}

/-! ## The value in the context -/

/-- What the name of a partition ends in when the context has the value. -/
def contextSuffix (cfg : Config κ) (name : String) (v : Value) : Except Exn String :=
  match cfg.partitionsModulo.lookup name with
  | some modulo => partitionModulo cfg v modulo
  | none => pure v.toText

theorem tableName_of_context (hp : cfg.partitions.lookup (_tableName spec group) = some field)
    (hv : context.lookup field = some v) :
    tableName cfg spec group context data
      = (contextSuffix cfg (_tableName spec group) v).map (fun w =>
          (_tableName spec group ++ "__" ++ field ++ w, some (_tableName spec group))) := by
  unfold tableName contextSuffix
  simp only [hp, hv]
  cases cfg.partitionsModulo.lookup (_tableName spec group) with
  | none => rfl
  | some modulo =>
    simp only
    cases partitionModulo cfg v modulo with
    | error e => rfl
    | ok w => rfl

/-- A partition is inherited from the table that is split. -/
theorem parent_of_context (hp : cfg.partitions.lookup (_tableName spec group) = some field)
    (hv : context.lookup field = some v) {t : String × Option String}
    (h : tableName cfg spec group context data = .ok t) : t.2 = some (_tableName spec group) := by
  rw [tableName_of_context hp hv] at h
  cases hw : contextSuffix cfg (_tableName spec group) v with
  | error e =>
    rw [hw] at h
    cases h
  | ok w =>
    rw [hw] at h
    cases h
    rfl

/-! ## The value in the data -/

theorem partitionValues_of_forall (hlist : ∀ l, v ≠ .list l) (hne : data ≠ [])
    (h : ∀ d ∈ data, d.lookup field = some v) : partitionValues field data = .ok [v] := by
  -- the first item gives the value, and the others give it again
  let I : List Item → List Value → Prop := fun l vals =>
    (∀ d ∈ l, d.lookup field = some v) ∧ (vals = [v] ∨ vals = [] ∧ l ≠ [])
  obtain ⟨vals, hvals, -, rfl | ⟨-, hnil⟩⟩ : ∃ vals, partitionValues field data = .ok vals
      ∧ I [] vals := by
    refine Except.foldlM_total (I := I) (fun d l vals hI => ⟨[v], ?_, ?_⟩) ⟨h, Or.inr ⟨rfl, hne⟩⟩
    · rw [hI.1 d List.mem_cons_self]
      cases v with
      | list l => exact absurd rfl (hlist l)
      | _ =>
        rcases hI.2 with rfl | ⟨rfl, -⟩
        · exact congrArg Except.ok (if_pos List.mem_cons_self)
        · exact congrArg Except.ok (if_neg List.not_mem_nil)
    · exact ⟨fun d' hd' => hI.1 d' (List.mem_cons_of_mem d hd'), Or.inl rfl⟩
  · exact hvals
  · exact absurd rfl hnil

theorem tableName_of_data (hp : cfg.partitions.lookup (_tableName spec group) = some field)
    (hv : context.lookup field = none) (hcontext : context.items ≠ [])
    (hlist : ∀ l, v ≠ .list l) (hne : data ≠ []) (h : ∀ d ∈ data, d.lookup field = some v) :
    tableName cfg spec group context data
      = .ok (_tableName spec group ++ "__" ++ field ++ v.toText, none) := by
  unfold tableName
  simp only [hp, hv, List.isEmpty_iff, if_neg hcontext, partitionValues_of_forall hlist hne h]
  rfl

/-- A table that is found by the data is inherited from none. -/
theorem parent_of_data (hp : cfg.partitions.lookup (_tableName spec group) = some field)
    (hv : context.lookup field = none) {t : String × Option String}
    (h : tableName cfg spec group context data = .ok t) : t.2 = none := by
  unfold tableName at h
  simp only [hp, hv] at h
  split_ifs at h with hempty
  · cases h
    rfl
  · obtain ⟨vals, -, h⟩ := Except.bind_eq_ok.mp h
    split at h
    · cases h
      rfl
    · cases h

/-! ## Both ways -/

/-- The names of the two tables are the same if the table has no fixed number of partitions, or else
if the value is the number of its own partition. -/
theorem names_eq_iff (h : Placed cfg spec group field v context context' data')
    (hcontext : context'.items ≠ []) (hlist : ∀ l, v ≠ .list l) :
    (∃ t t', tableName cfg spec group context data = .ok t
        ∧ tableName cfg spec group context' data' = .ok t' ∧ t.1 = t'.1)
      ↔ contextSuffix cfg (_tableName spec group) v = .ok v.toText := by
  rw [tableName_of_context h.partitioned h.inContext,
    tableName_of_data h.partitioned h.notInContext hcontext hlist h.items h.inData]
  constructor
  · rintro ⟨t, t', ht, ht', heq⟩
    cases ht'
    cases hw : contextSuffix cfg (_tableName spec group) v with
    | error e =>
      rw [hw] at ht
      cases ht
    | ok w =>
      rw [hw] at ht
      cases ht
      rw [(String.append_right_inj _).mp heq]
  · intro hw
    rw [hw]
    exact ⟨_, _, rfl, rfl, rfl⟩

/-- **The choice of a partition**: a value never leads to the same partition of the same table when
it is found in the context and when it is found in the data. -/
theorem not_samePartition (h : Placed cfg spec group field v context context' data') :
    ¬ SamePartition cfg spec group context context' data data' := by
  rintro ⟨t, ht, ht'⟩
  have hsome := parent_of_context h.partitioned h.inContext ht
  rw [parent_of_data h.partitioned h.notInContext ht'] at hsome
  cases hsome

/-! ### Ports and hosts -/

theorem not_samePartition_ports :
    ¬ SamePartition partitionedConfig "ports" "status" portContext
      (Dict.ofList [("port", .str "1/1")]) [] [Dict.ofList [("device", .str "rtr-core1")]] :=
  not_samePartition (v := .str "rtr-core1")
    ⟨(by decide : _ = some "device"), by decide, by decide, by decide, by decide⟩

/-- What a switch says of its hosts, with their addresses in the data. -/
def switchContext : Context := Dict.ofList [("device", .str "swh-ssrlb137ej5")]

def hostItem : Item :=
  Dict.ofList [("mac_address", .str "d4be.d951.2cd0"), ("physical_port", .str "Gi1/0/20")]

/-- The same address is in two tables, and one of them is no partition. -/
theorem not_samePartition_hosts :
    ¬ SamePartition sampleConfig "caching" "hosts" hostContext switchContext [] [hostItem] := by
  rintro ⟨t, ht, ht'⟩
  have htable : t = ("caching__hosts__mac_address15", some "caching__hosts") :=
    Except.ok.inj (ht.symm.trans (by decide))
  have htable' : t = ("caching__hosts__mac_addressd4be.d951.2cd0", none) :=
    Except.ok.inj (ht'.symm.trans (by decide))
  exact absurd (htable.symm.trans htable') (by decide)

end Postgres
