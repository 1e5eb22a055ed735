import InfixSearch.Library.Roster
import InfixSearch.Service.Master

/-!
# The registry of workers

`registerService` and `deregisterService` (`RemoteInfixSearch_server.cpp`) keep the workers
of a master in `host_list`. The one looks for an entry with the host and the port, and adds
its container at the end if there is none; the other goes through the list with an iterator
and erases every such entry. In `host_list` stand the pairs whose last call was to
register, each once, in the order of the calls that started their registrations
(`hostList_of_calls`).

All of this is about calls one after the other. In the runs of a master a call is one step as
well (`step_registerService`, `step_deregisterService`); that the threads of the pool may
make such calls at once, on a list without a lock, is left out.
-/

namespace InfixSearch

open Library

namespace Master

variable {m : Master} {host : Str} {port : ℤ}

/-! ### The two loops -/

/-- The loop of `registerService`: whether an entry matches. -/
def findEntry (host : Str) (port : ℤ) : List ThriftContainerT → Bool
  | [] => false
  | container :: rest => if container.host = host ∧ container.port = port then true else findEntry host port rest

/-- The loop of `deregisterService`: the entries before the iterator, and those from it. -/
def eraseEntries (host : Str) (port : ℤ) (before : List ThriftContainerT) : List ThriftContainerT → List ThriftContainerT
  | [] => before
  | container :: rest =>
    if container.host = host ∧ container.port = port then eraseEntries host port before rest
    else eraseEntries host port (before ++ [container]) rest

/-- `registerService`. -/
def registerService (m : Master) (host : Str) (port : ℤ) : Master :=
  let container : ThriftContainerT := ⟨host, port, m.conns.length⟩
  let found := findEntry host port m.hostList
  if ¬ found then { m with
    hostList := m.hostList ++ [container], conns := m.conns ++ [⟨host, port, false, [], []⟩] }
  else m

/-- `deregisterService`. -/
def deregisterService (m : Master) (host : Str) (port : ℤ) : Master :=
  { m with hostList := eraseEntries host port [] m.hostList }

theorem findEntry_eq (cs : List ThriftContainerT) :
    findEntry host port cs = cs.any fun c => decide (c.host = host ∧ c.port = port) := by
  induction cs with
  | nil => rfl
  | cons c cs ih =>
    by_cases h : c.host = host ∧ c.port = port
    · simp [findEntry, h]
    · simp only [findEntry, if_neg h, ih, List.any_cons, decide_eq_false h, Bool.false_or]

theorem eraseEntries_eq (before cs : List ThriftContainerT) :
    eraseEntries host port before cs = before ++ cs.filter fun c => ¬ (c.host = host ∧ c.port = port) := by
  induction cs generalizing before with
  | nil => exact (List.append_nil before).symm
  | cons c cs ih =>
    by_cases h : c.host = host ∧ c.port = port
    · rw [eraseEntries, if_pos h, ih, List.filter_cons_of_neg (by simpa using h)]
    · have hkeep := List.filter_cons_of_pos (p := fun c => decide ¬ (c.host = host ∧ c.port = port)) (l := cs) (decide_eq_true h)
      rw [eraseEntries, if_neg h, ih, hkeep, List.append_assoc, List.singleton_append]

section Step

variable (worker : Str → ℤ → Str → List Str)

/-- These are the steps of the master. -/
theorem step_registerService (m : Master) (host : Str) (port : ℤ) :
    step worker m (.registerService host port) = some (m.registerService host port) := by
  rw [step, ← findEntry_eq]
  by_cases hfound : findEntry host port m.hostList
  · simp [registerService, hfound]
  · simp [registerService, hfound]

theorem step_deregisterService (m : Master) (host : Str) (port : ℤ) :
    step worker m (.deregisterService host port) = some (m.deregisterService host port) := by
  rw [step, deregisterService, eraseEntries_eq, List.nil_append]

end Step

/-! ### Calls -/

/-- The pairs in `host_list`. -/
def hostPorts (m : Master) : List (Str × ℤ) := m.hostList.map fun c => (c.host, c.port)

/-- A call: to join is to call `registerService`, to leave is to call `deregisterService`. -/
def call (m : Master) : Change (Str × ℤ) → Master
  | .join (host, port) => m.registerService host port
  | .leave (host, port) => m.deregisterService host port

/-- Calls one after the other. -/
def calls (m : Master) (cs : List (Change (Str × ℤ))) : Master := cs.foldl call m

theorem findEntry_iff {cs : List ThriftContainerT} :
    findEntry host port cs ↔ (host, port) ∈ cs.map fun c => (c.host, c.port) := by
  simp [findEntry_eq]

theorem hostList_registerService_of_mem (h : (host, port) ∈ m.hostPorts) : m.registerService host port = m := by
  rw [registerService, findEntry_iff.mpr h]
  rfl

/-- A call changes the pairs as a roster changes. -/
theorem hostPorts_call (m : Master) (c : Change (Str × ℤ)) : (m.call c).hostPorts = c.apply m.hostPorts := by
  cases c with
  | join p =>
    obtain ⟨host, port⟩ := p
    by_cases hmem : (host, port) ∈ m.hostPorts
    · rw [call, hostList_registerService_of_mem hmem, Change.apply, if_pos hmem]
    · have hfound : ¬ findEntry host port m.hostList := mt findEntry_iff.mp hmem
      rw [Change.apply, if_neg hmem]
      simp [call, registerService, hfound, hostPorts]
  | leave p =>
    obtain ⟨host, port⟩ := p
    simp only [call, deregisterService, eraseEntries_eq, List.nil_append, hostPorts, Change.apply, List.filter_map]
    congr 2
    funext c
    simp

theorem hostPorts_calls (hempty : m.hostList = []) (cs : List (Change (Str × ℤ))) :
    (m.calls cs).hostPorts = roster cs := by
  induction cs using List.reverseRecOn with
  | nil => rw [calls, List.foldl_nil, hostPorts, hempty]; rfl
  | append_singleton cs c ih =>
    rw [roster_concat, ← ih, ← hostPorts_call]
    simp only [calls, List.foldl_append, List.foldl_cons, List.foldl_nil]

/-- **The registry of workers.** After any calls on a master without hosts, a pair is in `host_list` once if
its last call was to register, and not at all otherwise; the pairs are in the order of the calls that
started their registrations, of which there is one for each. To register again a pair that is there
changes nothing, and to deregister a pair takes it out and leaves the others as they are. -/
theorem hostList_of_calls (hempty : m.hostList = []) (cs : List (Change (Str × ℤ))) :
    (∀ p, (m.calls cs).hostPorts.count p = if Joined cs p then 1 else 0) ∧
      (∀ p, Joined cs p → ∃! i, Starts cs p i) ∧
      ((m.calls cs).hostPorts.Pairwise fun p q => ∃ i j, Starts cs p i ∧ Starts cs q j ∧ i < j) ∧
      (∀ host port, Joined cs (host, port) → (m.calls (cs ++ [.join (host, port)])).hostList = (m.calls cs).hostList) ∧
      ∀ host port, (m.calls (cs ++ [.leave (host, port)])).hostList =
        (m.calls cs).hostList.filter fun c => ¬ (c.host = host ∧ c.port = port) := by
  have hconcat : ∀ c, m.calls (cs ++ [c]) = (m.calls cs).call c := by
    intro c
    simp only [calls, List.foldl_append, List.foldl_cons, List.foldl_nil]
  rw [hostPorts_calls hempty]
  refine ⟨count_roster cs, ?_, roster_pairwise cs, ?_, ?_⟩
  · intro p hp
    obtain ⟨i, hi⟩ := exists_starts hp
    exact ⟨i, hi, fun j hj => hj.unique hi⟩
  · intro host port hp
    rw [hconcat, call, hostList_registerService_of_mem]
    rw [hostPorts_calls hempty]
    exact mem_roster.mpr hp
  · intro host port
    rw [hconcat, call, deregisterService, eraseEntries_eq, List.nil_append]

theorem hostList_of_calls_ab :
    (init.calls [.join (ascii "a", 1), .join (ascii "b", 1), .join (ascii "a", 1), .leave (ascii "b", 1)]
    ).hostPorts.count (ascii "a", 1) = 1 :=
  ((hostList_of_calls rfl _).1 (ascii "a", 1)).trans (if_pos (by decide))

end Master

end InfixSearch
