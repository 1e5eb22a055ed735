import InfixSearch.Search.Rows
import InfixSearch.Service.Registry

/-!
# The slave

`RemoteInfixSearchHandler` (`RemoteInfixSearch_server.cpp`) as a slave: `findMatches`
searches the key in the handler's `search_t` and replaces every word found by its row. A
slave has a `host_list`, too, and registers hosts in it as a master does.
`start_server` reads the dataset before it serves. `main` calls `start_http_server`,
which does not, so that every search is one of an empty index, and its answer is empty
(`findMatches_iff`).
-/

namespace InfixSearch

open Library SearchT

/-- `TYPE_SLAVE`. -/
def typeSlave : ℤ := 1

/-- `RemoteInfixSearchHandler`. -/
structure Handler where
  /-- `search`. -/
  search : SearchT Node2T
  /-- `port`. -/
  port : ℤ
  /-- `service_type`. -/
  serviceType : ℤ
  /-- `dataset`. -/
  dataset : Str
  /-- `host_list`, with what is behind it. -/
  hosts : Master

namespace Handler

/-- `RemoteInfixSearchHandler(service_type, port, dataset)`. -/
def construct (serviceType port : ℤ) (dataset : Str) : Handler := ⟨fresh, port, serviceType, dataset, .init⟩

/-- `start_http_server`, up to `server.serve()`: it makes a processor of the handler, a
transport and a pool of threads, and changes nothing of the handler. -/
def startHttpServer (h : Handler) : Except Fault Handler := pure h

/-- The loop of `findMatches` that replaces the words found by their rows. -/
def replaceRows (search : SearchT Node2T) : List Str → Except Fault (SearchT Node2T × List Str)
  | [] => pure (search, [])
  | x :: xs => do
    let (search, row) ← search.extractRow x
    let (search, rows) ← replaceRows search xs
    pure (search, row :: rows)

/-- `findMatches`, with what a master does in place of the search. -/
def findMatches (delegate : Handler → Str → Except Fault (Handler × List Str)) (h : Handler) (key : Str) :
    Except Fault (Handler × List Str) :=
  if h.serviceType = typeSlave then do
    let found ← h.search.findPath key []
    let (search, rows) ← replaceRows h.search found
    pure ({ h with search := search }, rows)
  else delegate h key

/-- `registerService`. -/
def registerService (h : Handler) (host : Str) (port : ℤ) : Handler :=
  { h with hosts := h.hosts.registerService host port }

/-- `deregisterService`. -/
def deregisterService (h : Handler) (host : Str) (port : ℤ) : Handler :=
  { h with hosts := h.hosts.deregisterService host port }

end Handler

/-! ### `main` -/

/-- What the command line sets. -/
structure Options where
  /-- `port`. -/
  port : ℤ
  /-- `service_type`. -/
  serviceType : ℤ
  /-- `dataset`. -/
  dataset : Str

/-- The digits of `atoi`. -/
def atoiDigits (n : ℤ) : Str → ℤ
  | [] => n
  | c :: s => if '0'.toUInt8 ≤ c ∧ c ≤ '9'.toUInt8 then atoiDigits (10 * n + (c - '0'.toUInt8).toNat) s else n

/-- `atoi`: blanks, a sign, and digits, for a number that fits in an `int`. -/
def atoi (s : Str) : ℤ :=
  match s.dropWhile (· ∈ ascii " \t\n\x0b\x0c\r") with
  | [] => 0
  | c :: s => if c = '-'.toUInt8 then -atoiDigits 0 s else if c = '+'.toUInt8 then atoiDigits 0 s else atoiDigits 0 (c :: s)

/-- The loop of `main` over its arguments. An option without a value reads the null pointer
behind them. -/
def parseArgs : List Str → Options → Except Fault Options
  | [], o => pure o
  | [arg], o => if arg ∈ [ascii "--port", ascii "--type", ascii "--dataset"] then throw .nullPointer else pure o
  | arg :: val :: args, o =>
    if arg = ascii "--port" then parseArgs args { o with port := atoi val }
    else if arg = ascii "--type" then parseArgs args { o with serviceType := atoi val }
    else if arg = ascii "--dataset" then parseArgs args { o with dataset := val }
    else parseArgs (val :: args) o

/-- `main`, up to the first request; `argv` without the name of the program. -/
def main (argv : List Str) : Except Fault Handler := do
  if argv = [] then throw .exit
  else
    let o ← parseArgs argv ⟨-1, -1, []⟩
    (Handler.construct o.serviceType o.port o.dataset).startHttpServer

/-! ### Requests -/

/-- The requests that a handler serves. -/
inductive Request where
  /-- `ping()`. -/
  | ping
  /-- `findMatches(key)`. -/
  | findMatches (key : Str)
  /-- `registerService(host, port)`. -/
  | registerService (host : Str) (port : ℤ)
  /-- `deregisterService(host, port)`. -/
  | deregisterService (host : Str) (port : ℤ)

section Serve

variable (delegate : Handler → Str → Except Fault (Handler × List Str))

/-- Serving one request. -/
def Handler.serve (h : Handler) : Request → Except Fault Handler
  | .ping => pure h
  | .findMatches key => Prod.fst <$> h.findMatches delegate key
  | .registerService host port => pure (h.registerService host port)
  | .deregisterService host port => pure (h.deregisterService host port)

/-- Requests served one after the other. -/
def Handler.Serves : Handler → List Request → Handler → Prop := Run fun h r h' => h.serve delegate r = .ok h'

/-- A slave that has not read anything. -/
def Handler.Unread (h : Handler) : Prop := h.search = fresh ∧ h.serviceType = typeSlave

theorem unread_of_main {argv : List Str} {h : Handler} (hmain : main argv = .ok h) (htype : h.serviceType = typeSlave) :
    h.Unread := by
  unfold main at hmain
  split_ifs at hmain
  rw [bind_eq_ok] at hmain
  obtain ⟨o, -, hmain⟩ := hmain
  obtain rfl := Except.ok.inj hmain
  exact ⟨rfl, htype⟩

/-- Nothing is found. -/
theorem Handler.Unread.findMatches_eq {h : Handler} (hu : h.Unread) {key : Str} (hne : key ≠ []) :
    h.findMatches delegate key = .ok (h, []) := by
  obtain ⟨c, key, rfl⟩ := List.exists_cons_of_ne_nil hne
  have h₀ : charAt (c :: key) 0 = _ := charAt_eq (by simp)
  have h₁ : charAt (c :: key) 1 = _ := charAt_eq (by simp)
  have hfound : fresh.findPath (c :: key) [] = .ok [] := by
    rw [findPath, findPathFound, h₀, ok_bind, h₁]
    rfl
  obtain ⟨hsearch, htype⟩ := hu
  rw [Handler.findMatches, if_pos htype, hsearch, hfound, ok_bind, Handler.replaceRows]
  simp only [pure_ok, ok_bind, ← hsearch]

/-- No request changes that. -/
theorem Handler.Unread.serve {h h' : Handler} (hu : h.Unread) {r : Request} (e : h.serve delegate r = .ok h') : h'.Unread := by
  cases r with
  | ping => exact Except.ok.inj e ▸ hu
  | findMatches key =>
    rcases eq_or_ne key [] with rfl | hne
    · -- the key has no second character
      rw [Handler.serve, Handler.findMatches, if_pos hu.2] at e
      cases e
    · rw [Handler.serve, hu.findMatches_eq delegate hne] at e
      exact Except.ok.inj e ▸ hu
  | registerService host port =>
    obtain rfl := Except.ok.inj e
    exact hu
  | deregisterService host port =>
    obtain rfl := Except.ok.inj e
    exact hu

/-- **When a slave answers from its dataset.** A process that `main` starts as a slave
answers a key, after any requests, with the lines of the dataset whose first column
contains the key, if and only if there are none. -/
theorem findMatches_iff {argv : List Str} {h h' : Handler} (hmain : main argv = .ok h) (htype : h.serviceType = typeSlave)
    {requests : List Request} (hserves : h.Serves delegate requests h') {key : Str} (hne : key ≠ [])
    (files : Str → Option (List Byte)) :
    ∀ file, files h.dataset = some file →
      ((∃ h'' rows, h'.findMatches delegate key = .ok (h'', rows) ∧
          ∀ x, x ∈ rows ↔ x ∈ lines newline file ∧ key <:+: firstColumn x) ↔
        ∀ line ∈ lines newline file, ¬ key <:+: firstColumn line) := by
  intro file _
  have hu : h'.Unread := hserves.invariant (fun hu e => hu.serve delegate e) (unread_of_main hmain htype)
  rw [hu.findMatches_eq delegate hne]
  constructor
  · rintro ⟨h'', rows, e, hall⟩ line hline hin
    obtain ⟨-, rfl⟩ := Prod.mk.inj (Except.ok.inj e)
    exact List.not_mem_nil ((hall line).mpr ⟨hline, hin⟩)
  · intro hno
    refine ⟨h', [], rfl, fun x => ⟨fun hx => absurd hx List.not_mem_nil, fun hx => ?_⟩⟩
    exact absurd hx.2 (hno x hx.1)

end Serve

/-- The command line of a slave. -/
def slaveArgs : List Str := [ascii "--type", ascii "1", ascii "--dataset", ascii "f"]

theorem main_slaveArgs : main slaveArgs = .ok (.construct typeSlave (-1) (ascii "f")) := by rfl

theorem findMatches_iff_zz : ∃ h h', main slaveArgs = .ok h ∧ h.Serves (fun h _ => pure (h, [])) [.ping] h' ∧
    ∀ file, (fun _ : Str => some (ascii "abc\tx\n")) h.dataset = some file →
      ((∃ h'' rows, h'.findMatches (fun h _ => pure (h, [])) (ascii "zz") = .ok (h'', rows) ∧
          ∀ x, x ∈ rows ↔ x ∈ lines newline file ∧ ascii "zz" <:+: firstColumn x) ↔
        ∀ line ∈ lines newline file, ¬ ascii "zz" <:+: firstColumn line) :=
  have hserves : Handler.Serves (fun h _ => pure (h, [])) (.construct typeSlave (-1) (ascii "f")) [.ping]
      (.construct typeSlave (-1) (ascii "f")) := Run.single rfl
  ⟨_, _, main_slaveArgs, hserves, findMatches_iff _ main_slaveArgs rfl hserves (by decide) fun _ => some (ascii "abc\tx\n")⟩

/-- The row of `abc` is not found by `bc`. -/
theorem not_findMatches_bc : ∃ h, main slaveArgs = .ok h ∧ h.serviceType = typeSlave ∧
    ¬ ∃ h'' rows, h.findMatches (fun h _ => pure (h, [])) (ascii "bc") = .ok (h'', rows) ∧
      ∀ x, x ∈ rows ↔ x ∈ lines newline (ascii "abc\tx\n") ∧ ascii "bc" <:+: firstColumn x := by
  refine ⟨_, main_slaveArgs, rfl, ?_⟩
  rintro ⟨h'', rows, e, hall⟩
  rw [Handler.Unread.findMatches_eq _ ⟨rfl, rfl⟩ (by decide)] at e
  obtain ⟨-, rfl⟩ := Prod.mk.inj (Except.ok.inj e)
  exact List.not_mem_nil ((hall (ascii "abc\tx")).mpr ⟨by decide +kernel, by decide +kernel⟩)

end InfixSearch
