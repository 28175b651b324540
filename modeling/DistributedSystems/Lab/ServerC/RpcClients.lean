import DistributedSystems.Lab.ServerC.StorageClnt
import DistributedSystems.Support.Linearization

/-!
# The front end under concurrency (`serverc/server.c` with `serverc/PeerToPeerRPC.c`)

Any number of threads of the front end, each on its own connection, whose reads, sends and calls of
the daemon come in any order. The client handle makes one call at a time, and so does the daemon, so
that a call through a stub is one step. A thread makes at most one (`atMostOnce_processRequestRpc`),
and the front end is linearizable in the order of these calls (`rpc_linearizable`). What the daemon
keeps under calls one after the other it therefore keeps under the threads (`rpc_records`), other
than the server that does the work in its own threads.
-/

namespace DistributedSystems.Lab.Traced

open Fs Support

/-! ## Threads with their own state -/

/-- What a thread has to itself: its socket, with what it has put on it, and the memory of the
result of its call. -/
structure Own where
  address : Option Bytes
  input : List ReadOutcome
  outcomes : Nat → Outcome
  opened : Nat
  results : Results
  sent : Bytes

def Own.world (o : Own) (s : Store) : World := ⟨s, o.input, o.outcomes, o.opened, o.results⟩

/-- What the thread has to itself in a world, with these bytes sent. -/
def World.own (address : Option Bytes) (sent : Bytes) (w : World) : Own :=
  ⟨address, w.input, w.outcomes, w.opened, w.results, sent⟩

/-- The bytes that one call puts on the socket. -/
def putBytes (e : Event Call.Answer) : Bytes := ((chunkOf e).map Chunk.put).getD []

/-- A connection that has been accepted: what is in the arrays of its thread, what reading yields,
how the sends turn out, and what the memory of the result holds. -/
structure Accepted where
  arrays : Variables
  address : Option Bytes
  input : List ReadOutcome
  outcomes : Nat → Outcome
  results : Results

def Accepted.world (k : Accepted) (s : Store) : World := ⟨s, k.input, k.outcomes, 0, k.results⟩

/-- The calls that go by the state of the thread alone. -/
def Call.isLocal : Call → Bool
  | .readLine _ | .getSocketAddress | .send _ | .write _ | .close => true
  | .readdir _ | .rewinddir _ | .closedir _ => true
  | .result | .userListLen | .userListVal _ | .titleListLen | .titleListVal _ => true
  | _ => false

section FrontEnd

variable {ε : Type} (rpc : ε → Procedure → Store → RpcReply)

/-- The environment of a call: how a call of the daemon turns out may be another one each time. The
front end makes no system calls for the store. -/
def envOf (address : Option Bytes) (e : ε) : Env where
  calls := posix []
  allocated := true
  address := address
  rpc := rpc e

/-- The threads of the front end. -/
def frontEnd : Clients Store Own Accepted ε Call.Answer Unit where
  own k := ⟨k.address, k.input, k.outcomes, 0, k.results, []⟩
  start k := processRequestRpc k.arrays
  exec e a x :=
    let r := exec (envOf rpc x.1.address e) a (x.1.world x.2)
    (r.1, r.2.own x.1.address (x.1.sent ++ putBytes ⟨a, r.1⟩), r.2.store)
  isLocal := Call.isLocal
  exec_local a ha e e' o s s' := by
    cases a with
    | readLine buffer => exact ⟨rfl, rfl, rfl⟩
    | getSocketAddress | send data | write data | close | readdir d | rewinddir d | closedir d
    | result | userListLen | userListVal ii | titleListLen | titleListVal ii =>
      exact ⟨rfl, rfl, rfl⟩
    | _ => cases ha

/-- A program of a thread does to its own state and to the store what it does in a world of both. -/
theorem run_frontEnd {ρ : Type} (program : Part ρ) (e : ε) (o : Own) (s : Store) :
    program.run ((frontEnd rpc).exec e) (o, s) =
      ((program.run (exec (envOf rpc o.address e)) (o.world s)).1,
        (program.run (exec (envOf rpc o.address e)) (o.world s)).2.own o.address
          (o.sent ++ sentBytes (program.trace (exec (envOf rpc o.address e)) (o.world s))),
        (program.run (exec (envOf rpc o.address e)) (o.world s)).2.store) := by
  induction program generalizing o s with
  | done r =>
    have hnone : o.sent ++ sentBytes [] = o.sent := List.append_nil _
    rw [Program.run_done, Program.run_done, Program.trace_done, hnone]
    rfl
  | call a next ih =>
    rw [Program.run_call, Program.run_call, Program.trace_call]
    refine (ih _ _ _).trans ?_
    have hsent : ∀ (x : Event Call.Answer) (trace : List (Event Call.Answer)),
        sentBytes (x :: trace) = putBytes x ++ sentBytes trace := by
      intro x trace
      unfold putBytes sentBytes onWire
      cases hx : chunkOf x with
      | none => rw [List.filterMap_cons_none hx]; rfl
      | some chunk => rw [List.filterMap_cons_some hx]; rfl
    rw [hsent, ← List.append_assoc]
    rfl

end FrontEnd

/-! ## One call of the daemon in each thread -/

/-- A call of the daemon. -/
def IsRpc (a : Call) : Prop := ∃ procedure, a = .rpc procedure

section AtMostOnce

/-- All calls are on the thread's own state. -/
abbrev Quiet {ρ : Type} (program : Part ρ) : Prop := program.Always fun a _ => a.isLocal = true

/-- All but at most one, which is a call of the daemon. -/
abbrev Single {ρ : Type} (program : Part ρ) : Prop := program.AtMostOnce Call.isLocal IsRpc

variable (v : Variables)

/-- Reading a field calls no daemon. -/
theorem single_readField {size : Nat} {buffer : Buffer size} {failed : Int}
    {next : Line → Handler} (h : ∀ line, Single (next line)) :
    Single (readField buffer failed next) := by
  refine Or.inl ⟨rfl, fun x => ?_⟩
  cases x with
  | none => trivial
  | some line => exact h line

/-- A call of a procedure is the one call of the daemon. -/
theorem single_callProcedure (procedure : Procedure) (failed : Int) :
    Single (callProcedure procedure failed) := by
  refine Or.inr ⟨⟨procedure, rfl⟩, fun ret => ?_⟩
  unfold callProcedure.returned
  split
  · trivial
  · exact ⟨rfl, fun _ => trivial⟩

/-- CONNECT asks the socket for its address before its call. -/
theorem single_connectUserRpc : Single (connectUserRpc v) := by
  refine single_readField fun userName => single_readField fun userPort => Or.inl ⟨rfl, fun x => ?_⟩
  cases x with
  | none => trivial
  | some address => exact single_callProcedure _ _

theorem quiet_refuse (status : Int) : Quiet (refuse status) := ⟨rfl, fun _ => trivial⟩

/-- The records are sent without a call of the daemon. -/
theorem quiet_sendUsers (n ii : Nat) : Quiet (sendUsers n ii) := by
  induction n generalizing ii with
  | zero => trivial
  | succ n ih =>
    refine ⟨rfl, fun x => ?_⟩
    cases x with
    | none => trivial
    | some user =>
      exact Program.always_bind (always_sendFields (Q := fun a => a.isLocal = true)
        (fun _ => rfl) _) fun _ => ih (ii + 1)

theorem quiet_sendTitles (n ii : Nat) : Quiet (sendTitles n ii) := by
  induction n generalizing ii with
  | zero => trivial
  | succ n ih =>
    refine ⟨rfl, fun x => ?_⟩
    cases x with
    | none => trivial
    | some title =>
      exact Program.always_bind (always_sendFields (Q := fun a => a.isLocal = true)
        (fun _ => rfl) _) fun _ => ih (ii + 1)

theorem quiet_usersListing : Quiet listUsersRpc.listing := by
  refine ⟨rfl, fun x => ?_⟩
  cases x with
  | none => trivial
  | some m =>
    refine ⟨rfl, fun numberUsers => ⟨rfl, fun x => ?_⟩⟩
    cases x with
    | none => trivial
    | some m => exact quiet_sendUsers _ _

theorem quiet_contentListing : Quiet listContentRpc.listing := by
  refine ⟨rfl, fun x => ?_⟩
  cases x with
  | none => trivial
  | some m =>
    refine ⟨rfl, fun numberFiles => ⟨rfl, fun x => ?_⟩⟩
    cases x with
    | none => trivial
    | some m => exact quiet_sendTitles _ _

/-- LIST_USERS calls the daemon once, and then sends. -/
theorem single_listUsersRpc (locals : Locals) : Single (listUsersRpc locals) := by
  refine Or.inl ⟨rfl, fun x => ?_⟩
  cases x with
  | none => exact Program.atMostOnce_of_always (quiet_refuse 3)
  | some userName =>
    refine Or.inr ⟨⟨_, rfl⟩, fun _ => ⟨rfl, fun x => ?_⟩⟩
    cases x with
    | none => trivial
    | some first =>
      rw [listUsersRpc.checked]
      split
      · exact quiet_refuse 3
      · exact quiet_usersListing

theorem quiet_sized (titleListLen : Nat) : Quiet (listContentRpc.sized titleListLen) := by
  unfold listContentRpc.sized
  split
  · exact quiet_contentListing
  · refine ⟨rfl, fun x => ?_⟩
    cases x with
    | none => trivial
    | some first =>
      rw [listContentRpc.checked]
      split
      · exact quiet_refuse 4
      · split
        · exact quiet_refuse 3
        · exact quiet_contentListing

/-- LIST_CONTENT calls the daemon once, and then sends. -/
theorem single_listContentRpc (locals : Locals) : Single (listContentRpc locals) := by
  refine Or.inl ⟨rfl, fun x => ?_⟩
  cases x with
  | none => exact Program.atMostOnce_of_always (quiet_refuse 4)
  | some useropName =>
    refine Or.inl ⟨rfl, fun x => ?_⟩
    cases x with
    | none => exact Program.atMostOnce_of_always (quiet_refuse 4)
    | some userName => exact Or.inr ⟨⟨_, rfl⟩, fun _ => ⟨rfl, fun n => quiet_sized n⟩⟩

theorem single_exits {part : Part Unit} (h : Single part) : Single (exits part) :=
  h.bind fun _ => trivial

/-- Every operation of the front end calls the daemon at most once. -/
theorem single_commandSelectorRpc (buffer : Bytes) : Single (commandSelectorRpc v buffer) := by
  unfold commandSelectorRpc
  split
  · exact single_readField fun _ => single_callProcedure _ _
  split
  · exact single_readField fun _ => single_callProcedure _ _
  split
  · exact single_connectUserRpc v
  split
  · exact single_readField fun _ => single_callProcedure _ _
  split
  · exact single_readField fun _ => single_readField fun _ => single_readField fun _ =>
      single_callProcedure _ _
  split
  · exact single_readField fun _ => single_readField fun _ => single_callProcedure _ _
  split
  · exact single_exits (single_listUsersRpc _)
  split
  · exact single_exits (single_listContentRpc _)
  · trivial

theorem quiet_replyStatus (output : Option Int) : Quiet (replyStatus output) := by
  cases output with
  | none => trivial
  | some output =>
    rw [replyStatus]
    split
    · exact ⟨rfl, fun _ => ⟨rfl, fun _ => trivial⟩⟩
    · exact ⟨rfl, fun _ => trivial⟩

/-- **A thread of the front end makes at most one call of the daemon**, and everything else it does
is on its own socket and memory. -/
theorem atMostOnce_processRequestRpc : Single (processRequestRpc v) := by
  refine Or.inl ⟨rfl, fun x => ?_⟩
  cases x with
  | none => exact Program.atMostOnce_of_always ⟨rfl, fun _ => trivial⟩
  | some message => exact (single_commandSelectorRpc v _).bind quiet_replyStatus

end AtMostOnce

/-! ## The threads together -/

section Threads

variable {ε : Type} {rpc : ε → Procedure → Store → RpcReply} {s₀ : Store}
  {p : Clients.Pool Store Own Accepted Call.Answer Unit}
  {steps : List (Clients.Pool Store Own Accepted Call.Answer Unit × Move Accepted ε)}

variable (rpc) in
/-- The thread has sent what it sends when it is run alone in this store, and that run leaves the
other one. -/
def ServedAlone (client : Client Own Accepted Call.Answer Unit) (e : ε) (s s' : Store) : Prop :=
  let env := envOf rpc client.request.address e
  let program := processRequestRpc client.request.arrays
  client.own.sent = sentBytes (program.trace (exec env) (client.request.world s)) ∧
    s' = (program.run (exec env) (client.request.world s)).2.store

/-- What a client has done with its one call is what it does alone. -/
theorem servedAlone_of_did {client : Client Own Accepted Call.Answer Unit} {r : Unit} {e : ε}
    {s s' : Store} (h : (frontEnd rpc).Did client r e s s') : ServedAlone rpc client e s s' := by
  have halone := (run_frontEnd rpc (processRequestRpc client.request.arrays) e
    ((frontEnd rpc).own client.request) s).symm.trans h
  obtain ⟨-, hstate⟩ := Prod.mk.inj halone
  obtain ⟨hown, hstore⟩ := Prod.mk.inj hstate
  exact ⟨(congrArg Own.sent hown).symm, hstore.symm⟩

variable (rpc s₀ p steps) in
/-- The run of the threads comes to the same as one thread after the other, in this order. -/
structure LinearizedBy (order : List (Nat × ε)) : Prop where
  nodup : (order.map Prod.fst).Nodup
  store : p.shared = (frontEnd rpc).serial s₀ (Clients.requests p order)
  /-- A thread that has ended has sent what it sends in its turn, or called nothing and sent what it
  sends in any store. -/
  ended : ∀ i client r, p.clients[i]? = some client → client.rest = .done r →
    (∃ before e after, order = before ++ (i, e) :: after ∧
      ServedAlone rpc client e ((frontEnd rpc).serial s₀ (Clients.requests p before))
        ((frontEnd rpc).serial s₀ (Clients.requests p (before ++ [(i, e)])))) ∨
    (i ∉ order.map Prod.fst ∧ ∀ e s, ServedAlone rpc client e s s)
  /-- A thread that ended before another one was started does not come after it. -/
  time : ∀ steps' p' i j, steps' <+: steps → Run (frontEnd rpc).Step ⟨s₀, []⟩ steps' p' →
    Clients.Ended p' i → p'.clients.length ≤ j →
      ∀ before e after, order = before ++ (j, e) :: after → i ∉ after.map Prod.fst

/-- **The RPC server is linearizable**: whatever the connections bring, however the threads are
interleaved, and however each call of the daemon turns out, the store and the bytes that every
thread sends are those of the same threads run one after the other in some order that agrees with
time. -/
theorem rpc_linearizable (h : Run (frontEnd rpc).Step ⟨s₀, []⟩ steps p) :
    ∃ order : List (Nat × ε), LinearizedBy rpc s₀ p steps order := by
  have hS : ∀ k, ((frontEnd rpc).start k).AtMostOnce (frontEnd rpc).isLocal IsRpc :=
    fun k => atMostOnce_processRequestRpc k.arrays
  obtain ⟨hshared, hnodup, hended⟩ := Clients.linearizable hS h
  refine ⟨(frontEnd rpc).order steps, hnodup, hshared, fun i client r hi hdone => ?_, ?_⟩
  · rcases hended i client r hi hdone with ⟨before, e, after, horder, hdid⟩ | ⟨hnot, hdid⟩
    · exact Or.inl ⟨before, e, after, horder, servedAlone_of_did hdid⟩
    · exact Or.inr ⟨hnot, fun e s => servedAlone_of_did (hdid e s)⟩
  · intro steps' p' i j hpre h' hend hnew before e after horder
    exact Clients.order_of_ended hS h hpre h' hend hnew horder

end Threads

/-! ## What the daemon keeps -/

/-- A call over the wire, under the conditions that it meets. -/
def wired (e : CallConditions × ResultMemory) : Procedure → Store → RpcReply :=
  clntCall (storageMessage e.1) e.2

/-- A call over the wire leaves the daemon's store as it is, or as one message leaves it. -/
theorem store_clntCall (daemon : CallMessage → Store → ReplyMessage × Store)
    (memory : ResultMemory) (procedure : Procedure) (s : Store) :
    (clntCall daemon memory procedure s).store = s ∨
      ∃ m, (clntCall daemon memory procedure s).store = (daemon m s).2 := by
  unfold clntCall
  cases procedure.arguments with
  | none => exact Or.inl rfl
  | some args =>
    refine Or.inr ⟨⟨procedure.number, args⟩, ?_⟩
    dsimp only
    split
    · split
      · rfl
      · rfl
    · rfl
    · rfl
    · rfl

/-- A thread run alone leaves the store alone, or sends the daemon one message. -/
theorem shared_alone (k : Accepted) (e : CallConditions × ResultMemory) (s : Store) :
    ((frontEnd wired).alone k e s).2.2 = s ∨
      ∃ m, ((frontEnd wired).alone k e s).2.2 = (storageMessage e.1 m s).2 := by
  have hrun := (frontEnd wired).shared_run (atMostOnce_processRequestRpc k.arrays) e
    ((frontEnd wired).own k) s
  rcases hrun with hsame | ⟨a, o, ⟨procedure, rfl⟩, hcall⟩
  · exact Or.inl hsame
  · rcases store_clntCall (storageMessage e.1) e.2 procedure s with hsame | ⟨m, hm⟩
    · exact Or.inl (hcall.trans hsame)
    · exact Or.inr ⟨m, hcall.trans hm⟩

/-- Requests one after the other are a run of the daemon over messages. -/
theorem exists_messageRun (t : Tree) (requests : List (Accepted × CallConditions × ResultMemory)) :
    ∃ steps, Run MessageStep (initServer t) steps
      ((frontEnd wired).serial (initServer t) requests) := by
  induction requests using List.reverseRecOn with
  | nil => exact ⟨[], .nil⟩
  | append_singleton requests x ih =>
    obtain ⟨steps, hrun⟩ := ih
    obtain ⟨k, e⟩ := x
    rw [Clients.serial_snoc]
    rcases shared_alone k e ((frontEnd wired).serial (initServer t) requests) with hsame | ⟨m, hm⟩
    · rw [hsame]
      exact ⟨steps, hrun⟩
    · exact ⟨_, hrun.snoc (a := (e.1, m)) hm.symm⟩

/-- **The records of the RPC server under concurrency.** However the threads of the front end are
interleaved, the daemon is in a state that call messages one after the other lead it to; so the
names of its records are distinct, and every record is one that LIST_USERS can send. -/
theorem rpc_records {t : Tree} {p : Clients.Pool Store Own Accepted Call.Answer Unit}
    {steps : List (Clients.Pool Store Own Accepted Call.Answer Unit ×
      Move Accepted (CallConditions × ResultMemory))}
    (h : Run (frontEnd wired).Step ⟨initServer t, []⟩ steps p) :
    (∃ messages, Run MessageStep (initServer t) messages p.shared) ∧
      (userNames p.shared.connected).Nodup ∧ RecordsCarried p.shared := by
  have hS : ∀ k, ((frontEnd wired).start k).AtMostOnce (frontEnd wired).isLocal IsRpc :=
    fun k => atMostOnce_processRequestRpc k.arrays
  obtain ⟨messages, hrun⟩ := exists_messageRun t
    (Clients.requests p ((frontEnd wired).order steps))
  rw [← (Clients.ordered_of_run hS h).shared] at hrun
  refine ⟨⟨messages, hrun⟩, ?_, listable_of_messages hrun⟩
  rw [connected_eq_table (daemonRun_of_messages hrun).1]
  exact Ledger.nodup_table _ _

/-! ### Two threads at once -/

/-- A connection over which `alice` connects. -/
def connectingAlice : Accepted where
  arrays := .zeros
  address := some (inetNtoa ⟨127, 0, 0, 1⟩)
  input := received (cstring "CONNECT\x00alice\x004000\x00")
  outcomes _ := .whole
  results := .empty

/-- Two such threads, the calls of one between those of the other. -/
def twoConnects : List (Move Accepted (CallConditions × ResultMemory)) :=
  let e : CallConditions × ResultMemory :=
    (⟨posix [], true, 0⟩, ⟨.empty, true, fun _ => none, fun _ => .empty⟩)
  [.spawn connectingAlice, .spawn connectingAlice] ++
    (List.replicate 8 [.run 0 e, .run 1 e]).flatten

/-- Before them, `alice` is registered. -/
def aliceRegistered : Store :=
  initServer (storage1 ⟨posix [], true, .registerUserRpc (cstring "alice")⟩
    (initServer usersTree)).2.tree

theorem twoConnects_linearizable :
    ∃ order, LinearizedBy wired aliceRegistered
      (twoConnects.foldl (frontEnd wired).move ⟨aliceRegistered, []⟩)
      ((frontEnd wired).schedule ⟨aliceRegistered, []⟩ twoConnects) order :=
  rpc_linearizable ((frontEnd wired).run_schedule _ _)

theorem twoConnects_records :
    (∃ messages, Run MessageStep aliceRegistered messages
        (twoConnects.foldl (frontEnd wired).move ⟨aliceRegistered, []⟩).shared) ∧
      (userNames (twoConnects.foldl (frontEnd wired).move
        ⟨aliceRegistered, []⟩).shared.connected).Nodup ∧
      RecordsCarried (twoConnects.foldl (frontEnd wired).move ⟨aliceRegistered, []⟩).shared :=
  rpc_records ((frontEnd wired).run_schedule _ _)

end DistributedSystems.Lab.Traced
