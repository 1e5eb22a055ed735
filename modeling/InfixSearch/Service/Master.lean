import InfixSearch.Node.Interface
import InfixSearch.Library.Run

/-!
# The master

A master (`RemoteInfixSearch_server.cpp`) serves requests in parallel. `findMatches`
makes a delegator for each worker in `host_list` and runs it in a thread of its own: it
opens the connection to the worker, sends the key, receives the matches and closes the
connection. A delegator holds a copy of the worker's `thrift_container_t`, and with it the
one connection that all delegators for this worker share.

The steps of delegators and workers are those of a transition system: any delegator that
can go on may go on next. Calls and replies of a connection are kept in order, `open` on
an open connection does nothing, and a delegator that ends in a `TException` leaves the
connection as it is. Nothing matches a reply to the delegator that waits for it:
delegators hold the replies to their own keys as long as each of them receives in turn
(`matches_of_run`).
-/

namespace InfixSearch

open Library

/-! ### States -/

/-- `thrift_container_t`; of the objects behind its shared pointers, the number of the
connection. -/
structure ThriftContainerT where
  /-- `host`. -/
  host : Str
  /-- `port`. -/
  port : ℤ
  /-- The connection. -/
  conn : ℕ
  deriving DecidableEq

/-- A call on its way to the worker. -/
structure Call where
  /-- The delegator that sent it, which is not part of the message. -/
  sender : ℕ
  /-- `key`. -/
  key : Str

/-- A reply on its way back. -/
structure Reply where
  /-- The delegator that sent the call, which is not part of the message. -/
  sender : ℕ
  /-- `success`. -/
  success : List Str

/-- A connection. -/
structure Conn where
  /-- The worker's host. -/
  host : Str
  /-- The worker's port. -/
  port : ℤ
  /-- Whether it is open. -/
  isOpen : Bool
  /-- The calls that the worker has not answered, oldest first. -/
  calls : List Call
  /-- The replies that nobody has received, oldest first. -/
  replies : List Reply

/-- How far `delegator_t::operator()` has come. -/
inductive Progress where
  /-- Not started. -/
  | created
  /-- After `transport->open()`. -/
  | opened
  /-- After `send_findMatches`. -/
  | sent
  /-- After `recv_findMatches`. -/
  | received
  /-- After `transport->close()`. -/
  | completed
  /-- Ended by a `TException`. -/
  | failed
  deriving DecidableEq

/-- `delegator_t`. -/
structure DelegatorT where
  /-- `key`. -/
  key : Str
  /-- `container`. -/
  container : ThriftContainerT
  /-- `matches`. -/
  matched : List Str
  /-- How far it has come. -/
  progress : Progress

/-- A master. -/
structure Master where
  /-- `host_list`. -/
  hostList : List ThriftContainerT
  /-- The connections made so far. -/
  conns : List Conn
  /-- The delegators made so far. -/
  delegators : List DelegatorT

namespace Master

/-- Before the first request. -/
def init : Master := ⟨[], [], []⟩

/-! ### Steps -/

/-- What can happen next. -/
inductive Act where
  /-- `registerService(host, port)`. -/
  | registerService (host : Str) (port : ℤ)
  /-- `deregisterService(host, port)`. -/
  | deregisterService (host : Str) (port : ℤ)
  /-- `findMatches(key)` makes its delegators. -/
  | findMatches (key : Str)
  /-- A delegator opens its connection. -/
  | openConn (d : ℕ)
  /-- A delegator sends its key. -/
  | send (d : ℕ)
  /-- A worker answers the oldest call of a connection. -/
  | answer (c : ℕ)
  /-- A delegator receives the oldest reply. -/
  | recv (d : ℕ)
  /-- A delegator closes its connection. -/
  | close (d : ℕ)
  /-- A delegator ends in a `TException`. -/
  | throw (d : ℕ)

/-- A step of a delegator, on itself and its connection. -/
def onDelegator (m : Master) (d : ℕ) (f : DelegatorT → Conn → Option (DelegatorT × Conn)) : Option Master := do
  let dl ← m.delegators[d]?
  let conn ← m.conns[dl.container.conn]?
  let (dl', conn') ← f dl conn
  pure { m with delegators := m.delegators.set d dl', conns := m.conns.set dl.container.conn conn' }

/-- The next reply on the connection of the delegator `d` is to a call that it sent itself. -/
def NextOwn (m : Master) (d : ℕ) : Prop :=
  ∀ dl conn reply, m.delegators[d]? = some dl → m.conns[dl.container.conn]? = some conn →
    conn.replies.head? = some reply → reply.sender = d

section Step

variable (worker : Str → ℤ → Str → List Str)

/-- One step; `worker host port key` is what the worker at `host` and `port` replies to `key`. -/
def step (m : Master) : Act → Option Master
  | .registerService host port =>
    if m.hostList.any fun c => c.host = host ∧ c.port = port then some m
    else some { m with
      hostList := m.hostList ++ [⟨host, port, m.conns.length⟩], conns := m.conns ++ [⟨host, port, false, [], []⟩] }
  | .deregisterService host port =>
    some { m with hostList := m.hostList.filter fun c => ¬ (c.host = host ∧ c.port = port) }
  | .findMatches key =>
    some { m with delegators := m.delegators ++ m.hostList.map fun container => ⟨key, container, [], .created⟩ }
  | .openConn d => m.onDelegator d fun dl conn =>
    if dl.progress = .created then
      some ({ dl with progress := .opened },
        if conn.isOpen then conn else { conn with isOpen := true, calls := [], replies := [] })
    else none
  | .send d => m.onDelegator d fun dl conn =>
    if dl.progress = .opened ∧ conn.isOpen then
      some ({ dl with progress := .sent }, { conn with calls := conn.calls ++ [⟨d, dl.key⟩] })
    else none
  | .answer c => do
    let conn ← m.conns[c]?
    match conn.isOpen, conn.calls with
    | true, call :: calls =>
      let reply := ⟨call.sender, worker conn.host conn.port call.key⟩
      pure { m with conns := m.conns.set c { conn with calls := calls, replies := conn.replies ++ [reply] } }
    | _, _ => none
  | .recv d => m.onDelegator d fun dl conn =>
    match conn.replies with
    | reply :: replies =>
      if dl.progress = .sent ∧ conn.isOpen then
        some ({ dl with progress := .received, matched := reply.success }, { conn with replies := replies })
      else none
    | [] => none
  | .close d => m.onDelegator d fun dl conn =>
    if dl.progress = .received then
      some ({ dl with progress := .completed }, { conn with isOpen := false, calls := [], replies := [] })
    else none
  | .throw d => m.onDelegator d fun dl conn =>
    if dl.progress ≠ .completed ∧ dl.progress ≠ .failed then some ({ dl with progress := .failed }, conn) else none

/-- The delegator `d` is in turn to receive: the next reply on its connection is to its own
key, or to one that the worker replies the same to. -/
def InTurn (m : Master) (d : ℕ) : Prop :=
  ∀ dl conn reply dl', m.delegators[d]? = some dl → m.conns[dl.container.conn]? = some conn →
    conn.replies.head? = some reply → m.delegators[reply.sender]? = some dl' →
      worker conn.host conn.port dl'.key = worker conn.host conn.port dl.key

/-- A step in which nobody receives out of turn. -/
def InTurnStep (m : Master) (a : Act) (m' : Master) : Prop := step worker m a = some m' ∧ ∀ d, a = .recv d → InTurn worker m d

/-- A step in which a delegator receives only the reply to its own call. -/
def OwnStep (m : Master) (a : Act) (m' : Master) : Prop := step worker m a = some m' ∧ ∀ d, a = .recv d → NextOwn m d

end Step

theorem onDelegator_eq_some {m m' : Master} {d : ℕ} {f : DelegatorT → Conn → Option (DelegatorT × Conn)}
    (h : m.onDelegator d f = some m') :
    ∃ dl conn dl' conn', m.delegators[d]? = some dl ∧ m.conns[dl.container.conn]? = some conn ∧
      f dl conn = some (dl', conn') ∧
      m' = { m with delegators := m.delegators.set d dl', conns := m.conns.set dl.container.conn conn' } := by
  obtain ⟨dl, hdl, h⟩ := Option.bind_eq_some_iff.mp h
  obtain ⟨conn, hconn, h⟩ := Option.bind_eq_some_iff.mp h
  obtain ⟨⟨dl', conn'⟩, hf, h⟩ := Option.bind_eq_some_iff.mp h
  exact ⟨dl, conn, dl', conn', hdl, hconn, hf, (Option.some.inj h).symm⟩

variable {worker : Str → ℤ → Str → List Str} {m m' : Master}

/-- The delegator that an action is a step of. -/
def Act.delegator : Act → Option ℕ
  | .openConn d => some d
  | .send d => some d
  | .recv d => some d
  | .close d => some d
  | .throw d => some d
  | _ => none

/-- What the step `a` of the delegator `d` does: the delegator keeps its key and its
container, puts no message on the connection but its own call, and gets its matches only by
receiving. -/
structure Moves (a : Act) (d : ℕ) (dl : DelegatorT) (conn : Conn) (dl' : DelegatorT) (conn' : Conn) : Prop where
  /-- The key. -/
  key : dl'.key = dl.key
  /-- The container. -/
  container : dl'.container = dl.container
  /-- The host. -/
  host : conn'.host = conn.host
  /-- The port. -/
  port : conn'.port = conn.port
  /-- The calls. -/
  calls : ∀ call ∈ conn'.calls, call ∈ conn.calls ∨ call = ⟨d, dl.key⟩
  /-- The replies. -/
  replies : ∀ reply ∈ conn'.replies, reply ∈ conn.replies
  /-- The matches. -/
  matched : a ≠ .recv d → dl'.progress = .received ∨ dl'.progress = .completed →
    (dl.progress = .received ∨ dl.progress = .completed) ∧ dl'.matched = dl.matched

/-- A step of the delegator `d`, on itself and its connection. -/
def MovesTo (m : Master) (a : Act) (d : ℕ) (m' : Master) : Prop :=
  ∃ dl conn dl' conn', m.delegators[d]? = some dl ∧ m.conns[dl.container.conn]? = some conn ∧ Moves a d dl conn dl' conn' ∧
    m' = { m with delegators := m.delegators.set d dl', conns := m.conns.set dl.container.conn conn' }

theorem movesTo_of_onDelegator {a : Act} {d : ℕ} {f : DelegatorT → Conn → Option (DelegatorT × Conn)}
    (h : m.onDelegator d f = some m')
    (hmoves : ∀ dl conn dl' conn', f dl conn = some (dl', conn') → Moves a d dl conn dl' conn') : m.MovesTo a d m' := by
  obtain ⟨dl, conn, dl', conn', hdl, hconn, e, rfl⟩ := onDelegator_eq_some h
  exact ⟨dl, conn, dl', conn', hdl, hconn, hmoves dl conn dl' conn' e, rfl⟩

/-- Every step of a delegator is of that kind. -/
theorem step_moves {a : Act} (hs : step worker m a = some m') {d : ℕ} (hd : a.delegator = some d) : m.MovesTo a d m' := by
  cases a with
  | registerService host port => cases hd
  | deregisterService host port => cases hd
  | findMatches key => cases hd
  | answer c => cases hd
  | openConn d =>
    obtain rfl := Option.some.inj hd
    refine movesTo_of_onDelegator hs fun dl conn dl' conn' e => ?_
    split_ifs at e
    · obtain ⟨rfl, rfl⟩ := Prod.mk.inj (Option.some.inj e)
      exact ⟨rfl, rfl, rfl, rfl, fun _ hc => .inl hc, fun _ hr => hr, fun _ hp => by simp at hp⟩
    · obtain ⟨rfl, rfl⟩ := Prod.mk.inj (Option.some.inj e)
      exact ⟨rfl, rfl, rfl, rfl, by simp, by simp, fun _ hp => by simp at hp⟩
  | send d =>
    obtain rfl := Option.some.inj hd
    refine movesTo_of_onDelegator hs fun dl conn dl' conn' e => ?_
    split_ifs at e
    obtain ⟨rfl, rfl⟩ := Prod.mk.inj (Option.some.inj e)
    exact ⟨rfl, rfl, rfl, rfl, by simp, fun _ hr => hr, fun _ hp => by simp at hp⟩
  | recv d =>
    obtain rfl := Option.some.inj hd
    refine movesTo_of_onDelegator hs fun dl conn dl' conn' e => ?_
    cases hr : conn.replies with
    | nil => rw [hr] at e; cases e
    | cons reply replies =>
      rw [hr] at e
      simp only at e
      split_ifs at e
      obtain ⟨rfl, rfl⟩ := Prod.mk.inj (Option.some.inj e)
      exact ⟨rfl, rfl, rfl, rfl, fun _ hc => .inl hc, fun x hx => hr ▸ List.mem_cons_of_mem _ hx,
        fun hne => absurd rfl hne⟩
  | close d =>
    obtain rfl := Option.some.inj hd
    refine movesTo_of_onDelegator hs fun dl conn dl' conn' e => ?_
    split_ifs at e with hreceived
    obtain ⟨rfl, rfl⟩ := Prod.mk.inj (Option.some.inj e)
    exact ⟨rfl, rfl, rfl, rfl, by simp, by simp, fun _ _ => ⟨.inl hreceived, rfl⟩⟩
  | throw d =>
    obtain rfl := Option.some.inj hd
    refine movesTo_of_onDelegator hs fun dl conn dl' conn' e => ?_
    split_ifs at e
    obtain ⟨rfl, rfl⟩ := Prod.mk.inj (Option.some.inj e)
    exact ⟨rfl, rfl, rfl, rfl, fun _ hc => .inl hc, fun _ hr => hr, fun _ hp => by simp at hp⟩

/-! ### Invariants -/

/-- The connection of a container is to its host. -/
def Connects (m : Master) (c : ThriftContainerT) : Prop :=
  ∃ conn, m.conns[c.conn]? = some conn ∧ conn.host = c.host ∧ conn.port = c.port

/-- A call has the key of its sender. -/
def Asks (m : Master) (call : Call) : Prop := ∃ dl, m.delegators[call.sender]? = some dl ∧ dl.key = call.key

/-- A reply is what the worker replies to the key of the sender of the call. -/
def Replies (worker : Str → ℤ → Str → List Str) (m : Master) (host : Str) (port : ℤ) (reply : Reply) : Prop :=
  ∃ dl, m.delegators[reply.sender]? = some dl ∧ reply.success = worker host port dl.key

/-- Every container is connected to its host, and every message is what it should be. -/
structure Faithful (worker : Str → ℤ → Str → List Str) (m : Master) : Prop where
  /-- The hosts. -/
  hosts : ∀ c ∈ m.hostList, m.Connects c
  /-- The containers of the delegators. -/
  containers : ∀ dl ∈ m.delegators, m.Connects dl.container
  /-- The calls. -/
  calls : ∀ conn ∈ m.conns, ∀ call ∈ conn.calls, m.Asks call
  /-- The replies. -/
  replies : ∀ conn ∈ m.conns, ∀ reply ∈ conn.replies, Replies worker m conn.host conn.port reply

/-- The delegator holds the reply to its own key. -/
def Answered (worker : Str → ℤ → Str → List Str) (dl : DelegatorT) : Prop :=
  dl.matched = worker dl.container.host dl.container.port dl.key

/-- Delegators keep their keys and containers, and connections their hosts. -/
structure Extends (m m' : Master) : Prop where
  /-- The delegators. -/
  delegators : ∀ (i : ℕ) (dl : DelegatorT), m.delegators[i]? = some dl →
    ∃ dl', m'.delegators[i]? = some dl' ∧ dl'.key = dl.key ∧ dl'.container = dl.container
  /-- The connections. -/
  conns : ∀ (c : ℕ) (conn : Conn), m.conns[c]? = some conn →
    ∃ conn', m'.conns[c]? = some conn' ∧ conn'.host = conn.host ∧ conn'.port = conn.port

namespace Extends

theorem connects (e : m.Extends m') {c : ThriftContainerT} (h : m.Connects c) : m'.Connects c := by
  obtain ⟨conn, hc, hhost, hport⟩ := h
  obtain ⟨conn', hc', hhost', hport'⟩ := e.conns _ _ hc
  exact ⟨conn', hc', hhost'.trans hhost, hport'.trans hport⟩

theorem asks (e : m.Extends m') {call : Call} (h : m.Asks call) : m'.Asks call := by
  obtain ⟨dl, hdl, hkey⟩ := h
  obtain ⟨dl', hdl', hkey', -⟩ := e.delegators _ _ hdl
  exact ⟨dl', hdl', hkey'.trans hkey⟩

theorem replies (e : m.Extends m') {host : Str} {port : ℤ} {reply : Reply} (h : Replies worker m host port reply) :
    Replies worker m' host port reply := by
  obtain ⟨dl, hdl, hs⟩ := h
  obtain ⟨dl', hdl', hkey', -⟩ := e.delegators _ _ hdl
  exact ⟨dl', hdl', by rw [hs, hkey']⟩

end Extends

/-- One entry of a list is replaced by one that is related to it. -/
theorem getElem?_set_of_rel {β : Type} {l : List β} {i : ℕ} {x x' : β} (h : l[i]? = some x) {P : β → β → Prop}
    (hx : P x x') (hrefl : ∀ y, P y y) (j : ℕ) (y : β) (hy : l[j]? = some y) :
    ∃ y', (l.set i x')[j]? = some y' ∧ P y y' := by
  obtain ⟨hlt, -⟩ := List.getElem?_eq_some_iff.mp h
  rcases eq_or_ne i j with rfl | hne
  · rw [h, Option.some.injEq] at hy
    subst hy
    exact ⟨x', List.getElem?_set_self hlt, hx⟩
  · exact ⟨y, by rw [List.getElem?_set_ne hne, hy], hrefl y⟩

theorem extends_setDelegator {d : ℕ} {dl dl' : DelegatorT} (hdl : m.delegators[d]? = some dl) (hkey : dl'.key = dl.key)
    (hcontainer : dl'.container = dl.container) : m.Extends { m with delegators := m.delegators.set d dl' } where
  delegators := getElem?_set_of_rel hdl (P := fun x x' => x'.key = x.key ∧ x'.container = x.container) ⟨hkey, hcontainer⟩
    fun _ => ⟨rfl, rfl⟩
  conns _ conn hc := ⟨conn, hc, rfl, rfl⟩

theorem extends_setConn {c : ℕ} {conn conn' : Conn} (hconn : m.conns[c]? = some conn) (hhost : conn'.host = conn.host)
    (hport : conn'.port = conn.port) : m.Extends { m with conns := m.conns.set c conn' } where
  delegators _ dl hd := ⟨dl, hd, rfl, rfl⟩
  conns := getElem?_set_of_rel hconn (P := fun x x' => x'.host = x.host ∧ x'.port = x.port) ⟨hhost, hport⟩
    fun _ => ⟨rfl, rfl⟩

/-- New hosts, connections and delegators come last. -/
theorem extends_append (m : Master) (hostList : List ThriftContainerT) (conns : List Conn)
    (delegators : List DelegatorT) :
    m.Extends ⟨hostList, m.conns ++ conns, m.delegators ++ delegators⟩ where
  delegators i dl hd := by
    obtain ⟨hlt, -⟩ := List.getElem?_eq_some_iff.mp hd
    exact ⟨dl, by rw [List.getElem?_append_left hlt, hd], rfl, rfl⟩
  conns c conn hc := by
    obtain ⟨hlt, -⟩ := List.getElem?_eq_some_iff.mp hc
    exact ⟨conn, by rw [List.getElem?_append_left hlt, hc], rfl, rfl⟩

namespace Faithful

/-- A delegator goes on. -/
theorem setDelegator (h : Faithful worker m) {d : ℕ} {dl dl' : DelegatorT} (hdl : m.delegators[d]? = some dl)
    (hkey : dl'.key = dl.key) (hcontainer : dl'.container = dl.container) :
    Faithful worker { m with delegators := m.delegators.set d dl' } := by
  have e := extends_setDelegator hdl hkey hcontainer
  refine ⟨fun c hc => e.connects (h.hosts c hc), fun x hx => ?_, fun y hy call hc => e.asks (h.calls y hy call hc),
    fun y hy reply hr => e.replies (h.replies y hy reply hr)⟩
  rcases List.mem_or_eq_of_mem_set hx with hx | rfl
  · exact e.connects (h.containers x hx)
  · rw [hcontainer]
    exact e.connects (h.containers dl (List.mem_of_getElem? hdl))

/-- A connection carries other messages, all of them as they should be. -/
theorem setConn (h : Faithful worker m) {c : ℕ} {conn conn' : Conn} (hconn : m.conns[c]? = some conn)
    (hhost : conn'.host = conn.host) (hport : conn'.port = conn.port)
    (hcalls : ∀ call ∈ conn'.calls, call ∈ conn.calls ∨ m.Asks call)
    (hreplies : ∀ reply ∈ conn'.replies, reply ∈ conn.replies ∨ Replies worker m conn.host conn.port reply) :
    Faithful worker { m with conns := m.conns.set c conn' } := by
  have e := extends_setConn hconn hhost hport
  have hmem := List.mem_of_getElem? hconn
  refine ⟨fun c hc => e.connects (h.hosts c hc), fun x hx => e.connects (h.containers x hx),
    fun y hy call hc => e.asks ?_, fun y hy reply hr => e.replies ?_⟩
  · rcases List.mem_or_eq_of_mem_set hy with hy | rfl
    · exact h.calls y hy call hc
    · exact (hcalls call hc).elim (h.calls conn hmem call) id
  · rcases List.mem_or_eq_of_mem_set hy with hy | rfl
    · exact h.replies y hy reply hr
    · rw [hhost, hport]
      exact (hreplies reply hr).elim (h.replies conn hmem reply) id

/-- No delegator puts a wrong message on its connection. -/
theorem of_delegator (h : Faithful worker m) {a : Act} {d : ℕ} (hs : Master.step worker m a = some m')
    (hd : a.delegator = some d) : Faithful worker m' := by
  obtain ⟨dl, conn, dl', conn', hdl, hconn, hmoves, rfl⟩ := step_moves hs hd
  have h' := h.setConn hconn hmoves.host hmoves.port (fun call hc => ?_) fun reply hr => .inl (hmoves.replies reply hr)
  · exact h'.setDelegator hdl hmoves.key hmoves.container
  · rcases hmoves.calls call hc with hc | rfl
    · exact .inl hc
    · exact .inr ⟨dl, hdl, rfl⟩

/-- A new host has a new connection, on which there is nothing yet. -/
theorem registerService (h : Faithful worker m) (host : Str) (port : ℤ) : Faithful worker { m with
    hostList := m.hostList ++ [⟨host, port, m.conns.length⟩], conns := m.conns ++ [⟨host, port, false, [], []⟩] } := by
  have e := extends_append m (m.hostList ++ [⟨host, port, m.conns.length⟩]) [⟨host, port, false, [], []⟩] []
  rw [List.append_nil] at e
  refine ⟨fun c hc => ?_, fun x hx => e.connects (h.containers x hx), fun y hy call hc => e.asks ?_,
    fun y hy reply hr => e.replies ?_⟩
  · rcases List.mem_append.mp hc with hc | hc
    · exact e.connects (h.hosts c hc)
    · obtain rfl := List.mem_singleton.mp hc
      exact ⟨⟨host, port, false, [], []⟩, by simp, rfl, rfl⟩
  · rcases List.mem_append.mp hy with hy | hy
    · exact h.calls y hy call hc
    · obtain rfl := List.mem_singleton.mp hy
      cases hc
  · rcases List.mem_append.mp hy with hy | hy
    · exact h.replies y hy reply hr
    · obtain rfl := List.mem_singleton.mp hy
      cases hr

/-- A new delegator has the container of a host. -/
theorem findMatches (h : Faithful worker m) (key : Str) : Faithful worker { m with
    delegators := m.delegators ++ m.hostList.map fun container => ⟨key, container, [], .created⟩ } := by
  have e := extends_append m m.hostList [] (m.hostList.map fun container => ⟨key, container, [], .created⟩)
  rw [List.append_nil] at e
  refine ⟨h.hosts, fun x hx => ?_, fun y hy call hc => e.asks (h.calls y hy call hc),
    fun y hy reply hr => e.replies (h.replies y hy reply hr)⟩
  rcases List.mem_append.mp hx with hx | hx
  · exact h.containers x hx
  · obtain ⟨c, hc, rfl⟩ := List.mem_map.mp hx
    exact h.hosts c hc

/-- A worker answers the key of the call. -/
theorem answer (h : Faithful worker m) {c : ℕ} (hs : Master.step worker m (.answer c) = some m') :
    Faithful worker m' := by
  obtain ⟨conn, hconn, hs⟩ := Option.bind_eq_some_iff.mp hs
  split at hs
  · rename_i call calls hopen hc
    obtain rfl := Option.some.inj hs
    have hmem := List.mem_of_getElem? hconn
    refine h.setConn hconn rfl rfl (fun x hx => .inl (by rw [hc]; exact List.mem_cons_of_mem _ hx)) fun reply hr => ?_
    rcases List.mem_append.mp hr with hr | hr
    · exact .inl hr
    · obtain rfl := List.mem_singleton.mp hr
      obtain ⟨dl, hdl, hkey⟩ := h.calls conn hmem call (by rw [hc]; exact List.mem_cons_self)
      exact .inr ⟨dl, hdl, by rw [hkey]⟩
  · cases hs

/-- No step puts a wrong message anywhere. -/
theorem step (h : Faithful worker m) {a : Act} (hs : Master.step worker m a = some m') : Faithful worker m' := by
  cases a with
  | registerService host port =>
    rw [Master.step] at hs
    split_ifs at hs
    · exact Option.some.inj hs ▸ h
    · exact Option.some.inj hs ▸ h.registerService host port
  | deregisterService host port =>
    obtain rfl := Option.some.inj hs
    exact ⟨fun c hc => h.hosts c (List.mem_of_mem_filter hc), h.containers, h.calls, h.replies⟩
  | findMatches key => exact Option.some.inj hs ▸ h.findMatches key
  | answer c => exact h.answer hs
  | openConn d => exact h.of_delegator hs rfl
  | send d => exact h.of_delegator hs rfl
  | recv d => exact h.of_delegator hs rfl
  | close d => exact h.of_delegator hs rfl
  | throw d => exact h.of_delegator hs rfl

end Faithful

/-! ### Receiving -/

/-- What a receiving delegator takes. -/
theorem recv_eq_some {d : ℕ} (hs : step worker m (.recv d) = some m') :
    ∃ dl conn reply replies, m.delegators[d]? = some dl ∧ m.conns[dl.container.conn]? = some conn ∧
      conn.replies = reply :: replies ∧ m'.delegators = m.delegators.set d { dl with
        progress := .received, matched := reply.success } := by
  obtain ⟨dl, conn, dl', conn', hdl, hconn, e, rfl⟩ := onDelegator_eq_some hs
  cases hr : conn.replies with
  | nil => rw [hr] at e; cases e
  | cons reply replies =>
    rw [hr] at e
    simp only at e
    split_ifs at e
    obtain ⟨rfl, rfl⟩ := Prod.mk.inj (Option.some.inj e)
    exact ⟨dl, conn, reply, replies, hdl, hconn, hr, rfl⟩

/-- A delegator receives the reply to its own key if and only if it is in turn. -/
theorem Faithful.answered_recv_iff (h : Faithful worker m) {d : ℕ} (hs : Master.step worker m (.recv d) = some m') :
    InTurn worker m d ↔ ∃ dl', m'.delegators[d]? = some dl' ∧ Answered worker dl' := by
  obtain ⟨dl, conn, reply, replies, hdl, hconn, hr, hm'⟩ := recv_eq_some hs
  obtain ⟨hlt, -⟩ := List.getElem?_eq_some_iff.mp hdl
  obtain ⟨x, hx, hsuccess⟩ := h.replies conn (List.mem_of_getElem? hconn) reply (by rw [hr]; exact List.mem_cons_self)
  obtain ⟨conn₁, hconn₁, hhost, hport⟩ := h.containers dl (List.mem_of_getElem? hdl)
  obtain rfl := Option.some.inj (hconn.symm.trans hconn₁)
  rw [hm', List.getElem?_set_self hlt]
  constructor
  · intro hturn
    refine ⟨_, rfl, ?_⟩
    have := hturn dl conn reply x hdl hconn (by rw [hr]; rfl) hx
    rw [Answered, ← hhost, ← hport, ← this, ← hsuccess]
  · rintro ⟨dl', hdl', hanswered⟩ dl₁ conn₁ reply₁ x₁ hdl₁ hconn₁ hr₁ hx₁
    obtain rfl := Option.some.inj hdl'
    obtain rfl := Option.some.inj (hdl.symm.trans hdl₁)
    obtain rfl := Option.some.inj (hconn.symm.trans hconn₁)
    rw [hr, List.head?_cons, Option.some.injEq] at hr₁
    subst hr₁
    obtain rfl := Option.some.inj (hx.symm.trans hx₁)
    rw [Answered, ← hhost, ← hport] at hanswered
    exact hsuccess.symm.trans hanswered

/-- Who has received holds the reply to its own key. -/
def AllAnswered (worker : Str → ℤ → Str → List Str) (m : Master) : Prop :=
  ∀ dl ∈ m.delegators, dl.progress = .received ∨ dl.progress = .completed → Answered worker dl

/-- A step of a delegator that does not receive. -/
theorem AllAnswered.of_delegator (h : AllAnswered worker m) {a : Act} {d : ℕ} (hs : Master.step worker m a = some m')
    (hd : a.delegator = some d) (hne : a ≠ .recv d) : AllAnswered worker m' := by
  obtain ⟨dl, conn, dl', conn', hdl, -, hmoves, rfl⟩ := step_moves hs hd
  intro x hx hp
  rcases List.mem_or_eq_of_mem_set hx with hx | rfl
  · exact h x hx hp
  · obtain ⟨hp', hmatched⟩ := hmoves.matched hne hp
    rw [Answered, hmoves.key, hmoves.container, hmatched]
    exact h dl (List.mem_of_getElem? hdl) hp'

/-- A delegator that receives in turn. -/
theorem AllAnswered.recv (h : AllAnswered worker m) (hf : Faithful worker m) {d : ℕ}
    (hs : Master.step worker m (.recv d) = some m') (hturn : InTurn worker m d) : AllAnswered worker m' := by
  obtain ⟨dl', hdl', hanswered⟩ := (hf.answered_recv_iff hs).mp hturn
  obtain ⟨dl, conn, reply, replies, hdl, -, -, hm'⟩ := recv_eq_some hs
  obtain ⟨hlt, -⟩ := List.getElem?_eq_some_iff.mp hdl
  intro x hx hp
  rw [hm'] at hx hdl'
  rcases List.mem_or_eq_of_mem_set hx with hx | rfl
  · exact h x hx hp
  · rw [List.getElem?_set_self hlt, Option.some.injEq] at hdl'
    exact hdl' ▸ hanswered

/-- Steps in turn keep to it. -/
theorem AllAnswered.step (h : AllAnswered worker m) (hf : Faithful worker m) {a : Act} (hs : InTurnStep worker m a m') :
    AllAnswered worker m' := by
  obtain ⟨hs, hturn⟩ := hs
  cases a with
  | registerService host port =>
    rw [Master.step] at hs
    split_ifs at hs
    · exact Option.some.inj hs ▸ h
    · exact Option.some.inj hs ▸ h
  | deregisterService host port => exact Option.some.inj hs ▸ h
  | findMatches key =>
    obtain rfl := Option.some.inj hs
    intro x hx hp
    rcases List.mem_append.mp hx with hx | hx
    · exact h x hx hp
    · obtain ⟨c, -, rfl⟩ := List.mem_map.mp hx
      rcases hp with hp | hp <;> cases hp
  | answer c =>
    obtain ⟨conn, -, hs⟩ := Option.bind_eq_some_iff.mp hs
    split at hs
    · exact Option.some.inj hs ▸ h
    · cases hs
  | recv d => exact h.recv hf hs (hturn d rfl)
  | openConn d => exact h.of_delegator hs rfl Act.noConfusion
  | send d => exact h.of_delegator hs rfl Act.noConfusion
  | close d => exact h.of_delegator hs rfl Act.noConfusion
  | throw d => exact h.of_delegator hs rfl Act.noConfusion

/-! ### Runs -/

theorem faithful_init : Faithful worker init :=
  ⟨fun _ h => absurd h List.not_mem_nil, fun _ h => absurd h List.not_mem_nil, fun _ h => absurd h List.not_mem_nil,
    fun _ h => absurd h List.not_mem_nil⟩

/-- Runs in turn keep to it. -/
theorem allAnswered_of_run {acts : List Act} (h : Run (InTurnStep worker) init acts m) :
    Faithful worker m ∧ AllAnswered worker m :=
  h.invariant (P := fun m => Faithful worker m ∧ AllAnswered worker m)
    (fun hinv hs => ⟨hinv.1.step hs.1, hinv.2.step hinv.1 hs⟩) ⟨faithful_init, fun _ h => absurd h List.not_mem_nil⟩

/-- **Each delegator its own reply.** In every run in which nobody receives out of turn,
every delegator that has completed holds the worker's reply to its own key. A delegator
that receives next will hold that if and only if it is in turn. -/
theorem matches_of_run {acts : List Act} (h : Run (InTurnStep worker) init acts m) :
    (∀ dl ∈ m.delegators, dl.progress = .completed → Answered worker dl) ∧
      ∀ d m', step worker m (.recv d) = some m' →
        (InTurn worker m d ↔ ∃ dl', m'.delegators[d]? = some dl' ∧ Answered worker dl') := by
  have hinv := allAnswered_of_run h
  exact ⟨fun dl hdl hp => hinv.2 dl hdl (.inr hp), fun d m' hs => hinv.1.answered_recv_iff hs⟩

/-- A delegator that the next reply belongs to is in turn. -/
theorem NextOwn.inTurn {d : ℕ} (h : NextOwn m d) : InTurn worker m d := by
  intro dl conn reply dl' hdl hconn hreply hdl'
  rw [h dl conn reply hdl hconn hreply, hdl] at hdl'
  rw [Option.some.inj hdl']

/-- It is enough that each delegator receives only when the next reply is to its own call, which is a condition
on the schedule alone. -/
theorem answered_of_own {acts : List Act} (h : Run (OwnStep worker) init acts m) :
    ∀ dl ∈ m.delegators, dl.progress = .completed → Answered worker dl :=
  have hturn : Run (InTurnStep worker) init acts m := h.mono fun hs => ⟨hs.1, fun d hd => (hs.2 d hd).inTurn⟩
  fun dl hdl hp => (allAnswered_of_run hturn).2 dl hdl (.inr hp)

/-- A worker that replies with the key. -/
def echo : Str → ℤ → Str → List Str := fun _ _ key => [key]

theorem matches_of_run_one :
    ∃ m, Run (InTurnStep echo) init [.registerService (ascii "w") 9, .findMatches (ascii "ab"), .openConn 0,
    .send 0, .answer 0, .recv 0, .close 0] m ∧ ∀ dl ∈ m.delegators, dl.progress = .completed → Answered echo dl := by
  have hsent : Run (InTurnStep echo) init [.registerService (ascii "w") 9, .findMatches (ascii "ab"), .openConn 0, .send 0,
      .answer 0] ⟨[⟨ascii "w", 9, 0⟩], [⟨ascii "w", 9, true, [], [⟨0, [ascii "ab"]⟩]⟩],
        [⟨ascii "ab", ⟨ascii "w", 9, 0⟩, [], .sent⟩]⟩ :=
    .cons ⟨rfl, fun _ h => nomatch h⟩ (.cons ⟨rfl, fun _ h => nomatch h⟩ (.cons ⟨rfl, fun _ h => nomatch h⟩
      (.cons ⟨rfl, fun _ h => nomatch h⟩ (.cons ⟨rfl, fun _ h => nomatch h⟩ .nil))))
  have hturn : InTurn echo ⟨[⟨ascii "w", 9, 0⟩], [⟨ascii "w", 9, true, [], [⟨0, [ascii "ab"]⟩]⟩],
      [⟨ascii "ab", ⟨ascii "w", 9, 0⟩, [], .sent⟩]⟩ 0 := ((matches_of_run hsent).2 0 _ rfl).mpr ⟨_, rfl, rfl⟩
  have hrest : Run (InTurnStep echo) _ [.recv 0, .close 0] _ :=
    .cons ⟨rfl, fun d h => by cases h; exact hturn⟩ (.cons ⟨rfl, fun _ h => nomatch h⟩ .nil)
  exact ⟨_, hsent.append hrest, (matches_of_run (hsent.append hrest)).1⟩

/-- Two requests at once: the second to send is the first to receive, and completes with
the reply to the other key. -/
theorem not_answered_of_two : ∃ acts m dl, Run (fun m a m' => step echo m a = some m') init acts m ∧ dl ∈ m.delegators ∧
    dl.progress = .completed ∧ dl.key = ascii "cd" ∧ dl.matched = [ascii "ab"] ∧ ¬ Answered echo dl := by
  refine ⟨[.registerService (ascii "w") 9, .findMatches (ascii "ab"), .findMatches (ascii "cd"), .openConn 0, .openConn 1,
    .send 0, .send 1, .answer 0, .recv 1, .close 1], _, ⟨ascii "cd", ⟨ascii "w", 9, 0⟩, [ascii "ab"], .completed⟩,
    Run.of_foldlM rfl, ?_, rfl, rfl, rfl, ?_⟩
  · exact List.mem_cons_of_mem _ List.mem_cons_self
  · exact fun h => absurd (show [ascii "ab"] = [ascii "cd"] from h) (by decide)

end Master

end InfixSearch
