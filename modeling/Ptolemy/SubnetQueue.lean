/-
# Subnets for scans

The supervisor of the subnet scans takes jobs with subnet records from its work queue and puts the
local ones that it monitors into its schedule.  It returns from `process_work_queue` as soon as it
has queued one, and a netmask that cannot be read raises out of it: in both cases the rest of the
job is lost, while jobs that have not been taken yet stay in the queue.

Where nothing is lost is said job by job (`Clear`), and the schedule is right after every job just
when all jobs are so (`queued_iff`).
-/
import Ptolemy.SchedulerRuns

open Scheduler

namespace Scannerd

/-! ## Networks -/

/-- An `IPv4Network`: its host bits are zero. -/
structure Network where
  network_address : ℕ
  prefixlen : ℕ
  prefixlen_le : prefixlen ≤ 32
  aligned : 2 ^ (32 - prefixlen) ∣ network_address

namespace Network

def num_addresses (n : Network) : ℕ := 2 ^ (32 - n.prefixlen)

/-- `a in n`. -/
def Contains (n : Network) (a : ℕ) : Prop :=
  n.network_address ≤ a ∧ a < n.network_address + n.num_addresses

instance (n : Network) (a : ℕ) : Decidable (n.Contains a) :=
  inferInstanceAs (Decidable (_ ∧ _))

/-- All addresses of the network are in the other one. -/
def LiesIn (n s : Network) : Prop := ∀ a, n.Contains a → s.Contains a

theorem contains_first (n : Network) : n.Contains n.network_address :=
  ⟨le_rfl, Nat.lt_add_of_pos_right (Nat.two_pow_pos _)⟩

/-- A network lies in another one if it begins in it and is not larger. -/
theorem liesIn_iff {n s : Network} :
    n.LiesIn s ↔ s.Contains n.network_address ∧ s.prefixlen ≤ n.prefixlen := by
  have hn := Nat.two_pow_pos (32 - n.prefixlen)
  constructor
  · intro h
    have hlast := h (n.network_address + n.num_addresses - 1)
      ⟨by unfold num_addresses; omega, by unfold num_addresses; omega⟩
    refine ⟨h _ n.contains_first, ?_⟩
    obtain ⟨hfirst, -⟩ := h _ n.contains_first
    have hle : 2 ^ (32 - n.prefixlen) ≤ 2 ^ (32 - s.prefixlen) := by
      unfold Contains num_addresses at hlast
      omega
    have hexp := (Nat.pow_le_pow_iff_right (by omega : 1 < 2)).mp hle
    have hlen := n.prefixlen_le
    have hlen' := s.prefixlen_le
    omega
  · rintro ⟨⟨hfirst, hlast⟩, hlen⟩ a ⟨ha, ha'⟩
    refine ⟨hfirst.trans ha, lt_of_lt_of_le ha' ?_⟩
    -- both ends are multiples of the lesser size
    have hsize : n.num_addresses ∣ s.num_addresses := pow_dvd_pow 2 (by omega)
    obtain ⟨i, hi⟩ : n.num_addresses ∣ s.network_address + s.num_addresses :=
      dvd_add (hsize.trans s.aligned) hsize
    obtain ⟨j, hj⟩ : n.num_addresses ∣ n.network_address := n.aligned
    rw [hi, hj] at hlast ⊢
    have hlt : j < i := Nat.lt_of_mul_lt_mul_left hlast
    calc n.num_addresses * j + n.num_addresses = n.num_addresses * (j + 1) := by ring
      _ ≤ n.num_addresses * i := Nat.mul_le_mul_left _ hlt

end Network

/-! ## The supervisor -/

/-- A subnet record. -/
abbrev Record : Type := Dict String Value

/-- A job: the `data` of each of its items, if it has one. -/
abbrev Job : Type := List (Option (List Record))

/-- What the supervisor has been given, and what it takes from its surroundings: a network is added
to the schedule once at most, at its tick. -/
structure Supervisor where
  subnets : List Network
  min_prefix_len : ℕ := 18
  max_prefix_len : ℕ := 26
  netmask_to_prefixlen : Value → Except Exn ℕ
  ipv4Network : String → Except Exn Network
  ticks : String → Tick

/-- `"%s/%s" % (prefix,prefix_len)`. -/
def networkName (addr : Value) (prefix_len : ℕ) : String :=
  addr.toText ++ "/" ++ toString prefix_len

/-- `v == True`. -/
def equalsTrue : Value → Bool
  | .bool b => b
  | .int n => n = 1
  | .float text => text = "1.0"
  | _ => false

/-- `'local' in subnet and subnet['local'] == True`. -/
def isLocal (subnet : Record) : Bool := (subnet.lookup "local").any equalsTrue

/-- The node that is added for a network. -/
def nodeOf (network : String) : Scheduler.Node :=
  ⟨network, Dict.ofList [("schedule", Dict.ofList [("scannerd", .str "54 +- 6")])]⟩

/-- A loop with a `return`: it ends with the first turn that returns or raises. -/
def untilReturn {α : Type} (f : α → Parser → Parser × Except Exn Bool) :
    List α → Parser → Parser × Except Exn Bool
  | [], p => (p, .ok false)
  | a :: l, p => match f a p with
    | (p, .ok false) => untilReturn f l p
    | (p, .ok true) => (p, .ok true)
    | (p, .error e) => (p, .error e)

/-- The parser of a new supervisor. -/
def start : Parser :=
  ⟨⟨.dict [("default", .dict [("scannerd", .str "54 +- 6")])], .dict []⟩, ∅, []⟩

namespace Supervisor

variable (W : Supervisor)

/-- Whether the loop over the monitored subnets finds one. -/
def monitors (this : Network) (prefix_len : ℕ) : Bool :=
  W.subnets.any (fun s => s.Contains this.network_address ∧ W.min_prefix_len ≤ prefix_len
    ∧ prefix_len ≤ W.max_prefix_len)

/-- Queue a network that has not been seen, if it is monitored; whether the function returns. What
is raised here is caught. -/
def queueNetwork (network : String) (prefix_len : ℕ) (p : Parser) : Parser × Bool :=
  match W.ipv4Network network with
  | .error _ => (p, false)
  | .ok this =>
      if W.monitors this prefix_len then
        let p := { p with
          nodes := p.nodes.insert network (.dict [("schedule", .dict [("ref", .str "default")])]) }
        match p.add (some (nodeOf network)) "scannerd" 1 (W.ticks network) with
        | .error _ => (p, false)
        | .ok (p, _) => (p, true)
      else (p, false)

/-- What is done with a record. -/
def processSubnet (subnet : Record) (p : Parser) : Parser × Except Exn Bool :=
  match subnet.lookup "prefix", subnet.lookup "netmask" with
  | some addr, some netmask =>
      match W.netmask_to_prefixlen netmask with
      | .error e => (p, .error e)
      | .ok prefix_len =>
          let network := networkName addr prefix_len
          if isLocal subnet then
            if network ∈ p.nodes then (p, .ok false)
            else
              let (p, returned) := W.queueNetwork network prefix_len p
              (p, .ok returned)
          else (p, .ok false)
  | _, _ => (p, .ok false)

def processItem (item : Option (List Record)) (p : Parser) : Parser × Except Exn Bool :=
  match item with
  | none => (p, .ok false)
  | some data => untilReturn W.processSubnet data p

def processJob (job : Job) (p : Parser) : Parser × Except Exn Bool :=
  untilReturn W.processItem job p

/-- `process_work_queue`, on the jobs that the queue gives: it leaves those that it has not
taken. -/
def process_work_queue : List Job → Parser → Parser × Except Exn Unit × List Job
  | [], p => (p, .ok (), [])
  | job :: jobs, p => match W.processJob job p with
    | (p, .ok false) => process_work_queue jobs p
    | (p, .ok true) => (p, .ok (), jobs)
    | (p, .error e) => (p, .error e, jobs)

/-- Calls until the queue is empty, each of them being given the first of the jobs. -/
inductive Drains : List Job → Parser → Parser → Prop where
  | done (p : Parser) : Drains [] p p
  | call {taken left : List Job} {p p' : Parser}
      (rest : Drains ((W.process_work_queue taken p).2.2 ++ left) (W.process_work_queue taken p).1
        p') : Drains (taken ++ left) p p'

/-! ## What is to be queued -/

/-- A record is of a network that the supervisor queues. -/
def Wanted (r : Record) (n : String) : Prop :=
  ∃ addr netmask prefix_len this, r.lookup "prefix" = some addr ∧ r.lookup "netmask" = some netmask
    ∧ W.netmask_to_prefixlen netmask = .ok prefix_len ∧ n = networkName addr prefix_len
    ∧ isLocal r = true ∧ W.ipv4Network n = .ok this ∧ W.monitors this prefix_len = true

/-- A local record is of a network that lies in a monitored subnet, with a length within the
bounds. -/
def Qualifies (r : Record) (n : String) : Prop :=
  ∃ addr netmask prefix_len this, r.lookup "prefix" = some addr ∧ r.lookup "netmask" = some netmask
    ∧ W.netmask_to_prefixlen netmask = .ok prefix_len ∧ n = networkName addr prefix_len
    ∧ isLocal r = true ∧ W.ipv4Network n = .ok this ∧ (∃ s ∈ W.subnets, this.LiesIn s)
    ∧ W.min_prefix_len ≤ prefix_len ∧ prefix_len ≤ W.max_prefix_len

/-- The netmask of a record raises. -/
def Raises (r : Record) : Prop :=
  ∃ addr netmask e, r.lookup "prefix" = some addr ∧ r.lookup "netmask" = some netmask
    ∧ W.netmask_to_prefixlen netmask = .error e

end Supervisor

/-- The records of a job. -/
def records (job : Job) : List Record := job.flatMap (fun item => item.getD [])

namespace Supervisor

variable (W : Supervisor)

/-- A network of which a record has been received. -/
def Received (jobs : List Job) (n : String) : Prop :=
  ∃ job ∈ jobs, ∃ r ∈ records job, W.Qualifies r n

/-- **The schedule has one entry for each network that qualifies**, and no other. -/
def Queued (jobs : List Job) : Prop :=
  ∀ p, W.Drains jobs start p →
    (∀ n, W.Received jobs n → p.heap.countP (fun e => e.node = n ∧ e.spec = "scannerd") = 1)
      ∧ ∀ e ∈ p.heap, W.Received jobs e.node

/-- A record at which the loop ends, for the networks that have been seen. -/
def Stops (seen : String → Prop) (r : Record) : Prop := W.Raises r ∨ ∃ n, W.Wanted r n ∧ ¬ seen n

/-- The record at which the loop ends is of a network that qualifies, or raises, and no other
network that qualifies and has not been seen comes after it. -/
def Clear (seen : String → Prop) (rs : List Record) : Prop :=
  ∀ before r after, rs = before ++ r :: after → (∀ r' ∈ before, ¬ W.Stops seen r') →
    W.Stops seen r → (∀ n, W.Wanted r n → W.Qualifies r n)
      ∧ ∀ r' ∈ after, ∀ n, W.Qualifies r' n → seen n ∨ W.Wanted r n

end Supervisor

/-! ## The loops as one -/

theorem untilReturn_append {α : Type} (f : α → Parser → Parser × Except Exn Bool) (l l' : List α)
    (p : Parser) : untilReturn f (l ++ l') p = match untilReturn f l p with
      | (p, .ok false) => untilReturn f l' p
      | (p, .ok true) => (p, .ok true)
      | (p, .error e) => (p, .error e) := by
  induction l generalizing p with
  | nil => rfl
  | cons a l ih =>
    rw [List.cons_append, untilReturn, untilReturn]
    rcases f a p with ⟨p', e | b⟩
    · rfl
    · cases b
      · exact ih p'
      · rfl

theorem untilReturn_flatMap {α β : Type} (f : β → Parser → Parser × Except Exn Bool)
    (g : α → List β) (l : List α) (p : Parser) :
    untilReturn (fun a p => untilReturn f (g a) p) l p = untilReturn f (l.flatMap g) p := by
  induction l generalizing p with
  | nil => rfl
  | cons a l ih =>
    rw [List.flatMap_cons, untilReturn_append, untilReturn]
    rcases untilReturn f (g a) p with ⟨p', e | b⟩
    · rfl
    · cases b
      · exact ih p'
      · rfl

namespace Supervisor

variable (W : Supervisor)

theorem processJob_eq (job : Job) (p : Parser) :
    W.processJob job p = untilReturn W.processSubnet (records job) p := by
  have hitem : W.processItem = fun item p => untilReturn W.processSubnet (item.getD []) p := by
    funext item p
    cases item with
    | none => rfl
    | some data => rfl
  rw [processJob, hitem, untilReturn_flatMap, records]

/-! ## One record -/

/-- When a network is scanned first. -/
def dueAt (n : String) : ℚ :=
  (W.ticks n).now + uniform 0 (54 + uniform (-6) 6 (W.ticks n).spread) (W.ticks n).start

/-- The parser with one more network. -/
def queued (p : Parser) (n : String) : Parser :=
  { p with
    nodes := p.nodes.insert n (.dict [("schedule", .dict [("ref", .str "default")])])
    heap := Heapq.heappush p.heap ⟨W.dueAt n, n, "scannerd"⟩ }

theorem dueTime_nodeOf (n : String) :
    dueTime (nodeOf n) "scannerd" 1 (W.ticks n) = .ok (some (W.dueAt n)) := by
  have hdelta : _delta (.str "54 +- 6") = .ok (54, 6) := by decide +kernel
  have htime : getTimeDelta (nodeOf n) "scannerd" = .ok (some (.str "54 +- 6")) := rfl
  have htruthy : (Yaml.str "54 +- 6").truthy = true := by decide
  rw [dueTime, htime, Except.ok_bind]
  simp only [htruthy, if_true, delta, hdelta, Except.ok_bind]
  norm_num [dueAt]

theorem queueNetwork_of_monitored {n : String} {prefix_len : ℕ} {this : Network} (p : Parser)
    (hthis : W.ipv4Network n = .ok this) (hmon : W.monitors this prefix_len = true) :
    W.queueNetwork n prefix_len p = (W.queued p n, true) := by
  have hname : (nodeOf n).name = n := rfl
  simp only [queueNetwork, hthis, hmon, if_true, Parser.add, W.dueTime_nodeOf, hname]
  rfl

variable {W} {p : Parser} {r : Record} {n : String}

theorem processSubnet_of_raises (h : W.Raises r) : ∃ e, W.processSubnet r p = (p, .error e) := by
  obtain ⟨addr, netmask, e, haddr, hmask, hlen⟩ := h
  exact ⟨e, by simp only [processSubnet, haddr, hmask, hlen]⟩

theorem processSubnet_of_wanted (h : W.Wanted r n) (hn : n ∉ p.nodes) :
    W.processSubnet r p = (W.queued p n, .ok true) := by
  obtain ⟨addr, netmask, len, this, haddr, hmask, hlen, rfl, hlocal, hthis, hmon⟩ := h
  simp only [processSubnet, haddr, hmask, hlen, hlocal, if_true, if_neg hn,
    W.queueNetwork_of_monitored p hthis hmon]

theorem processSubnet_of_not_stops (h : ¬ W.Stops (· ∈ p.nodes) r) :
    W.processSubnet r p = (p, .ok false) := by
  obtain ⟨hraises, hwanted⟩ := not_or.mp h
  unfold processSubnet
  split
  · rename_i addr netmask haddr hmask
    split
    · rename_i e hlen
      exact absurd ⟨addr, netmask, e, haddr, hmask, hlen⟩ hraises
    · rename_i len hlen
      dsimp only
      split_ifs with hlocal hseen
      · rfl
      · have hnot : (W.queueNetwork (networkName addr len) len p) = (p, false) := by
          unfold queueNetwork
          split
          · rfl
          · rename_i this hthis
            split_ifs with hmon
            · exact absurd ⟨_, ⟨addr, netmask, len, this, haddr, hmask, hlen, rfl, hlocal, hthis,
                hmon⟩, hseen⟩ hwanted
            · rfl
        rw [hnot]
      · rfl
  · rfl

/-! ## One job -/

/-- No record ends the loop. -/
theorem untilReturn_of_not_stops {rs : List Record} (h : ∀ r ∈ rs, ¬ W.Stops (· ∈ p.nodes) r) :
    untilReturn W.processSubnet rs p = (p, .ok false) := by
  induction rs with
  | nil => rfl
  | cons r rs ih =>
    rw [untilReturn, processSubnet_of_not_stops (h r List.mem_cons_self)]
    exact ih (fun r' hr' => h r' (List.mem_cons_of_mem r hr'))

/-- The first record that ends the loop decides. -/
theorem untilReturn_of_stops {before after : List Record}
    (hbefore : ∀ r' ∈ before, ¬ W.Stops (· ∈ p.nodes) r') (hstops : W.Stops (· ∈ p.nodes) r) :
    (untilReturn W.processSubnet (before ++ r :: after) p).1 = (W.processSubnet r p).1 := by
  rw [untilReturn_append, untilReturn_of_not_stops hbefore]
  dsimp only
  rw [untilReturn]
  rcases hstops with hraises | ⟨n, hwanted, hn⟩
  · obtain ⟨e, he⟩ := processSubnet_of_raises (p := p) hraises
    rw [he]
  · rw [processSubnet_of_wanted hwanted hn]

/-- The first of the elements with a property. -/
theorem exists_first {α : Type} {P : α → Prop} {l : List α} (h : ∃ a ∈ l, P a) :
    ∃ before a after, l = before ++ a :: after ∧ (∀ b ∈ before, ¬ P b) ∧ P a := by
  classical
  obtain ⟨b, hb, hP⟩ := h
  obtain ⟨a, hfind⟩ := Option.isSome_iff_exists.mp
    ((List.find?_isSome (p := fun a => decide (P a))).mpr ⟨b, hb, decide_eq_true hP⟩)
  obtain ⟨ha, before, after, rfl, hbefore⟩ := List.find?_eq_some_iff_append.mp hfind
  exact ⟨before, a, after, rfl, fun c hc => by simpa using hbefore c hc, of_decide_eq_true ha⟩

theorem Qualifies.wanted (h : W.Qualifies r n) : W.Wanted r n := by
  obtain ⟨addr, netmask, len, this, haddr, hmask, hlen, hn, hlocal, hthis, ⟨s, hs, hlies⟩, hmin,
    hmax⟩ := h
  refine ⟨addr, netmask, len, this, haddr, hmask, hlen, hn, hlocal, hthis,
    List.any_eq_true.mpr ⟨s, hs, decide_eq_true ⟨?_, hmin, hmax⟩⟩⟩
  exact hlies _ this.contains_first

theorem Wanted.eq {n' : String} (h : W.Wanted r n) (h' : W.Wanted r n') : n' = n := by
  obtain ⟨addr, netmask, len, -, haddr, hmask, hlen, rfl, -⟩ := h
  obtain ⟨addr', netmask', len', -, haddr', hmask', hlen', rfl, -⟩ := h'
  obtain rfl := Option.some.inj (haddr.symm.trans haddr')
  obtain rfl := Option.some.inj (hmask.symm.trans hmask')
  obtain rfl := Except.ok.inj (hlen.symm.trans hlen')
  rfl

theorem Raises.not_wanted (h : W.Raises r) : ¬ W.Wanted r n := by
  rintro ⟨addr, netmask, len, -, haddr, hmask, hlen, -⟩
  obtain ⟨addr', netmask', e, haddr', hmask', hlen'⟩ := h
  obtain rfl := Option.some.inj (hmask.symm.trans hmask')
  rw [hlen] at hlen'
  cases hlen'

theorem mem_queued {n' : String} : n' ∈ (W.queued p n).nodes ↔ n' = n ∨ n' ∈ p.nodes :=
  AList.mem_insert _

/-- What is asked of a job, at the record that ends its loop. -/
theorem clear_iff {seen : String → Prop} {before after : List Record}
    (hbefore : ∀ r' ∈ before, ¬ W.Stops seen r') (hstops : W.Stops seen r) :
    W.Clear seen (before ++ r :: after) ↔ (∀ n, W.Wanted r n → W.Qualifies r n)
      ∧ ∀ r' ∈ after, ∀ n, W.Qualifies r' n → seen n ∨ W.Wanted r n := by
  refine ⟨fun h => h before r after rfl hbefore hstops, fun h b x a hsplit hb hx => ?_⟩
  -- there is only one such record
  rcases List.append_eq_append_iff.mp hsplit with ⟨c, hb', hc⟩ | ⟨c, hb', hc⟩
  · cases c with
    | nil =>
      obtain ⟨rfl, rfl⟩ := List.cons.inj hc
      exact h
    | cons y c =>
      obtain ⟨rfl, -⟩ := List.cons.inj hc
      exact absurd hstops (hb r (hb' ▸ List.mem_append_right _ List.mem_cons_self))
  · cases c with
    | nil =>
      obtain ⟨rfl, rfl⟩ := List.cons.inj hc
      exact h
    | cons y c =>
      obtain ⟨rfl, -⟩ := List.cons.inj hc
      exact absurd hx (hbefore x (hb' ▸ List.mem_append_right _ List.mem_cons_self))

/-- **When a job loses nothing**: the networks seen after it are those seen before and those of its
records that qualify. -/
theorem processJob_iff (W : Supervisor) (job : Job) (p : Parser) :
    (∀ n, n ∈ (W.processJob job p).1.nodes
        ↔ n ∈ p.nodes ∨ ∃ r ∈ records job, W.Qualifies r n)
      ↔ W.Clear (· ∈ p.nodes) (records job) := by
  rw [processJob_eq]
  by_cases hnone : ∃ r ∈ records job, W.Stops (· ∈ p.nodes) r
  · obtain ⟨before, r, after, hrs, hbefore, hstops⟩ := exists_first hnone
    have hseen : ∀ r' ∈ before, ∀ n, W.Qualifies r' n → n ∈ p.nodes := fun r' hr' n hq =>
      not_not.mp (fun hn => hbefore r' hr' (Or.inr ⟨n, hq.wanted, hn⟩))
    rw [hrs, untilReturn_of_stops hbefore hstops, clear_iff hbefore hstops]
    rcases hstops with hraises | ⟨m, hwanted, hm⟩
    · obtain ⟨e, he⟩ := processSubnet_of_raises (p := p) hraises
      rw [he]
      constructor
      · exact fun h => ⟨fun n hn => absurd hn hraises.not_wanted, fun r' hr' n hq => Or.inl
          ((h n).mpr (Or.inr ⟨r', List.mem_append_right _ (List.mem_cons_of_mem r hr'), hq⟩))⟩
      · rintro ⟨-, hafter⟩ n
        refine ⟨Or.inl, fun h => h.elim id ?_⟩
        rintro ⟨r', hr', hq⟩
        rcases List.mem_append.mp hr' with hr' | hr'
        · exact hseen r' hr' n hq
        rcases List.mem_cons.mp hr' with rfl | hr'
        · exact absurd hq.wanted hraises.not_wanted
        · exact (hafter r' hr' n hq).resolve_right hraises.not_wanted
    · rw [processSubnet_of_wanted hwanted hm]
      simp only [mem_queued]
      constructor
      · intro h
        constructor
        · -- the network that is queued is of this record, whichever record qualifies for it
          intro n hn
          obtain rfl := hwanted.eq hn
          obtain ⟨r', -, hq⟩ := ((h n).mp (Or.inl rfl)).resolve_left hm
          obtain ⟨-, -, -, this, -, -, -, -, -, hthis, hlies, -⟩ := hq
          obtain ⟨addr, netmask, len, this', haddr, hmask, hlen, hname, hlocal, hthis', hmon⟩ :=
            hn
          obtain rfl := Except.ok.inj (hthis.symm.trans hthis')
          obtain ⟨s, -, hs⟩ := List.any_eq_true.mp hmon
          obtain ⟨-, hmin, hmax⟩ := of_decide_eq_true hs
          exact ⟨addr, netmask, len, this, haddr, hmask, hlen, hname, hlocal, hthis, hlies, hmin,
            hmax⟩
        · intro r' hr' n hq
          rcases (h n).mpr (Or.inr ⟨r', List.mem_append_right _ (List.mem_cons_of_mem r hr'), hq⟩)
            with rfl | hn
          · exact Or.inr hwanted
          · exact Or.inl hn
      · rintro ⟨hown, hafter⟩ n
        constructor
        · rintro (rfl | hn)
          · exact Or.inr ⟨r, List.mem_append_right _ List.mem_cons_self, hown n hwanted⟩
          · exact Or.inl hn
        · rintro (hn | ⟨r', hr', hq⟩)
          · exact Or.inr hn
          rcases List.mem_append.mp hr' with hr' | hr'
          · exact Or.inr (hseen r' hr' n hq)
          rcases List.mem_cons.mp hr' with rfl | hr'
          · exact Or.inl (hwanted.eq hq.wanted)
          · rcases hafter r' hr' n hq with hn | hn
            · exact Or.inr hn
            · exact Or.inl (hwanted.eq hn)
  · push Not at hnone
    rw [untilReturn_of_not_stops hnone]
    refine iff_of_true (fun n => ⟨Or.inl, fun h => h.elim id ?_⟩) ?_
    · rintro ⟨r, hr, hq⟩
      exact not_not.mp (fun hn => hnone r hr (Or.inr ⟨n, hq.wanted, hn⟩))
    · intro before r after hrs _ hstops
      exact absurd hstops (hnone r (hrs ▸ List.mem_append_right _ List.mem_cons_self))

/-! ## Runs -/

/-- The parser after all jobs of a queue. -/
def after (W : Supervisor) (jobs : List Job) (p : Parser) : Parser :=
  jobs.foldl (fun p job => (W.processJob job p).1) p

/-- A call does what its jobs do that it takes. -/
theorem after_process_work_queue (W : Supervisor) (jobs : List Job) (p : Parser) :
    W.after (W.process_work_queue jobs p).2.2 (W.process_work_queue jobs p).1
      = W.after jobs p := by
  induction jobs generalizing p with
  | nil => rfl
  | cons job jobs ih =>
    have hcons : W.after (job :: jobs) p = W.after jobs (W.processJob job p).1 := rfl
    rw [hcons, process_work_queue]
    rcases W.processJob job p with ⟨p', e | b⟩
    · rfl
    · cases b
      · exact ih p'
      · rfl

/-- **Whatever jobs the calls are given**, the queue is drained to the same parser. -/
theorem drains_iff {W : Supervisor} {jobs : List Job} {p p' : Parser} :
    W.Drains jobs p p' ↔ p' = W.after jobs p := by
  constructor
  · intro h
    induction h with
    | done p => rfl
    | @call taken left p p' rest ih =>
      have happ : ∀ (l l' : List Job) (q : Parser),
          W.after (l ++ l') q = W.after l' (W.after l q) := fun l l' q => List.foldl_append
      rw [ih, happ, happ, after_process_work_queue]
  · rintro rfl
    induction jobs generalizing p with
    | nil => exact .done p
    | cons job jobs ih =>
      have hrest : (W.process_work_queue [job] p).2.2 = [] := by
        rw [process_work_queue]
        rcases W.processJob job p with ⟨p', e | b⟩
        · rfl
        · cases b <;> rfl
      have hnext : (W.process_work_queue [job] p).1 = (W.processJob job p).1 := by
        rw [process_work_queue]
        rcases W.processJob job p with ⟨p', e | b⟩
        · rfl
        · cases b <;> rfl
      have hcall : W.Drains ((W.process_work_queue [job] p).2.2 ++ jobs)
          (W.process_work_queue [job] p).1 (W.after jobs (W.processJob job p).1) := by
        rw [hrest, hnext]
        exact ih
      exact .call hcall

/-- The networks that have been seen are those in the schedule. -/
structure Consistent (p : Parser) : Prop where
  count : ∀ n, p.heap.countP (fun e => e.node = n ∧ e.spec = "scannerd")
    = if n ∈ p.nodes then 1 else 0
  node : ∀ e ∈ p.heap, e.node ∈ p.nodes

theorem consistent_start : Consistent start := by
  refine ⟨fun n => ?_, fun e he => absurd he List.not_mem_nil⟩
  exact (if_neg (AList.notMem_empty n)).symm

theorem Consistent.queued (h : Consistent p) (hn : n ∉ p.nodes) : Consistent (W.queued p n) := by
  have hperm : (W.queued p n).heap.Perm (⟨W.dueAt n, n, "scannerd"⟩ :: p.heap) :=
    Heapq.heappush_perm _ _
  constructor
  · intro n'
    rw [hperm.countP_eq, List.countP_cons, h.count]
    by_cases heq : n' = n
    · subst heq
      simp [hn, mem_queued]
    · simp [heq, Ne.symm heq, mem_queued]
  · intro e he
    rcases List.mem_cons.mp (hperm.mem_iff.mp he) with rfl | he
    · exact mem_queued.mpr (Or.inl rfl)
    · exact mem_queued.mpr (Or.inr (h.node e he))

/-- One job keeps the schedule consistent. -/
theorem Consistent.processJob (h : Consistent p) (job : Job) :
    Consistent (W.processJob job p).1 := by
  rw [processJob_eq]
  by_cases hnone : ∃ r ∈ records job, W.Stops (· ∈ p.nodes) r
  · obtain ⟨before, r, after, hrs, hbefore, hstops⟩ := exists_first hnone
    rw [hrs, untilReturn_of_stops hbefore hstops]
    rcases hstops with hraises | ⟨m, hwanted, hm⟩
    · obtain ⟨e, he⟩ := processSubnet_of_raises (p := p) hraises
      rw [he]
      exact h
    · rw [processSubnet_of_wanted hwanted hm]
      exact h.queued hm
  · push Not at hnone
    rw [untilReturn_of_not_stops hnone]
    exact h

theorem Consistent.after (h : Consistent p) (jobs : List Job) : Consistent (W.after jobs p) := by
  induction jobs generalizing p with
  | nil => exact h
  | cons job jobs ih => exact ih (h.processJob job)

theorem queued_iff_nodes {jobs : List Job} :
    W.Queued jobs ↔ ∀ n, n ∈ (W.after jobs start).nodes ↔ W.Received jobs n := by
  have hcons : Consistent (W.after jobs start) := consistent_start.after jobs
  have hcount : ∀ n, (W.after jobs start).heap.countP (fun e => e.node = n ∧ e.spec = "scannerd")
      = 1 ↔ n ∈ (W.after jobs start).nodes := by
    intro n
    rw [hcons.count]
    split_ifs with hn <;> simp [hn]
  constructor
  · intro h n
    obtain ⟨hone, hother⟩ := h _ (drains_iff.mpr rfl)
    refine ⟨fun hn => ?_, fun hn => (hcount n).mp (hone n hn)⟩
    have hpos := (hcount n).mpr hn
    obtain ⟨e, he, hnode⟩ := List.countP_pos_iff.mp (by rw [hpos]; exact Nat.one_pos)
    exact (of_decide_eq_true hnode).1 ▸ hother e he
  · rintro h p hp
    rw [drains_iff.mp hp]
    exact ⟨fun n hn => (hcount n).mpr ((h n).mpr hn), fun e he => (h e.node).mp (hcons.node e he)⟩

theorem received_append {pre : List Job} {job : Job} :
    W.Received (pre ++ [job]) n ↔ W.Received pre n ∨ ∃ r ∈ records job, W.Qualifies r n := by
  simp [Received, or_and_right, exists_or]

/-- One more job. -/
theorem queued_snoc {pre : List Job} (h : W.Queued pre) (job : Job) :
    W.Queued (pre ++ [job]) ↔ W.Clear (W.Received pre) (records job) := by
  have hseen : (· ∈ (W.after pre start).nodes) = W.Received pre :=
    funext fun n => propext (queued_iff_nodes.mp h n)
  have hsnoc : W.after (pre ++ [job]) start = (W.processJob job (W.after pre start)).1 := by
    rw [Supervisor.after, List.foldl_append]
    rfl
  rw [queued_iff_nodes, hsnoc, ← hseen, ← processJob_iff]
  refine forall_congr' (fun n => ?_)
  rw [received_append, ← hseen]

/-- **When the schedule is right after every job**: when every job is clear, for the networks that
qualified before it. -/
theorem queued_iff (W : Supervisor) (jobs : List Job) :
    (∀ pre post, jobs = pre ++ post → W.Queued pre)
      ↔ ∀ pre job post, jobs = pre ++ job :: post → W.Clear (W.Received pre) (records job) := by
  constructor
  · intro h pre job post hjobs
    refine (queued_snoc (h pre (job :: post) hjobs) job).mp (h (pre ++ [job]) post ?_)
    rw [hjobs, List.append_assoc]
    rfl
  · intro h pre
    induction pre using List.reverseRecOn with
    | nil =>
      intro post _
      refine queued_iff_nodes.mpr (fun n => iff_of_false (AList.notMem_empty n) ?_)
      rintro ⟨job, hjob, -⟩
      exact absurd hjob List.not_mem_nil
    | append_singleton pre job ih =>
      intro post hjobs
      have hsplit : jobs = pre ++ job :: post := by
        rw [hjobs, List.append_assoc]
        rfl
      exact (queued_snoc (ih _ hsplit) job).mpr (h pre job post hsplit)

end Supervisor

/-- A supervisor of 10.0.0.0/16, and two networks in it. -/
def campus : Supervisor where
  subnets := [⟨167772160, 16, by decide, by decide⟩]
  netmask_to_prefixlen := fun netmask =>
    if netmask = .str "255.255.255.0" then .ok 24 else .error (.valueError "netmask")
  ipv4Network := fun network =>
    if network = "10.0.1.0/24" then .ok ⟨167772416, 24, by decide, by decide⟩
    else if network = "10.0.2.0/24" then .ok ⟨167772672, 24, by decide, by decide⟩
    else .error (.valueError "network")
  ticks := fun _ => tickAt 0

def routed (addr : String) : Record :=
  Dict.ofList [("prefix", .str addr), ("netmask", .str "255.255.255.0"), ("local", .bool true)]

/-- Of two networks in one message the second one is not scheduled. -/
theorem not_queued_second :
    ¬ campus.Queued [[some [routed "10.0.1.0", routed "10.0.2.0"]]] := by
  intro h
  obtain ⟨hone, -⟩ := h _ (Supervisor.drains_iff.mpr rfl)
  have hname : networkName (.str "10.0.2.0") 24 = "10.0.2.0/24" := by decide +kernel
  have hlies : (⟨167772672, 24, by decide, by decide⟩ : Network).LiesIn
      ⟨167772160, 16, by decide, by decide⟩ := Network.liesIn_iff.mpr (by decide)
  have hcount := hone "10.0.2.0/24" ⟨_, List.mem_singleton.mpr rfl, routed "10.0.2.0",
    by simp [records], .str "10.0.2.0", .str "255.255.255.0", 24, _, rfl, rfl, rfl, hname.symm,
    rfl, rfl, ⟨_, List.mem_singleton.mpr rfl, hlies⟩, by decide, by decide⟩
  revert hcount
  decide +kernel

end Scannerd
