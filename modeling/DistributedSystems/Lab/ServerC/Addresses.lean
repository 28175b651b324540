import DistributedSystems.Lab.ServerC.Stages
import Mathlib.Logic.Function.Basic

/-!
# The addresses of connected users

`get_socket_address` asks with `getsockname`, which gives the address of the server's own end of the
connection. The record of a user therefore holds the address that the user's client reached the
server under. It is the address of the client, and LIST_USERS leads to the user, exactly as long as
every CONNECT that is recorded came over a connection with one address at both ends
(`endpoints_iff`).
-/

namespace DistributedSystems.Lab

open Fs Support

/-! ## Addresses -/

/-- An IPv4 address, from its first byte on. -/
structure InAddr where
  a : UInt8
  b : UInt8
  c : UInt8
  d : UInt8
deriving DecidableEq, Repr

/-- A byte in decimal, without leading zeros. -/
def decimal (n : UInt8) : Bytes :=
  if n < 10 then [48 + n]
  else if n < 100 then [48 + n / 10, 48 + n % 10]
  else [48 + n / 100, 48 + n / 10 % 10, 48 + n % 10]

def period : UInt8 := 46

def inetNtoa (address : InAddr) : Bytes :=
  decimal address.a ++ period :: (decimal address.b ++ period ::
    (decimal address.c ++ period :: decimal address.d))

/-- The number that digits stand for. -/
def readDecimal (digits : Bytes) : UInt8 := digits.foldl (fun n ch => n * 10 + (ch - 48)) 0

/-- All bytes, for `decide` to run through. -/
theorem forall_uint8 {P : UInt8 → Prop} (h : ∀ n : Fin 256, P (.ofFin n)) (n : UInt8) : P n :=
  h n.toFin

/-- A byte is read back from its decimal digits. -/
theorem readDecimal_decimal (n : UInt8) : readDecimal (decimal n) = n :=
  forall_uint8 (P := fun n => readDecimal (decimal n) = n) (by decide +kernel) n

theorem period_notMem_decimal (n : UInt8) : period ∉ decimal n :=
  forall_uint8 (P := fun n => period ∉ decimal n) (by decide +kernel) n

theorem decimal_injective : Function.Injective decimal :=
  Function.LeftInverse.injective readDecimal_decimal

/-- The text of an address splits into its four numbers. -/
theorem splitOn_inetNtoa (x : InAddr) :
    (inetNtoa x).splitOn period = [decimal x.a, decimal x.b, decimal x.c, decimal x.d] := by
  unfold inetNtoa
  simp only [List.splitOn_append_cons_self,
    List.splitOn_eq_singleton (period_notMem_decimal _)]
  rfl

/-- Two addresses with the same text are the same. -/
theorem inetNtoa_injective : Function.Injective inetNtoa := by
  intro x y h
  have hsplit := congrArg (List.splitOn period) h
  rw [splitOn_inetNtoa, splitOn_inetNtoa] at hsplit
  simp only [List.cons.injEq, and_true] at hsplit
  obtain ⟨ha, hb, hc, hd⟩ := hsplit
  cases x
  cases y
  rw [InAddr.mk.injEq]
  exact ⟨decimal_injective ha, decimal_injective hb, decimal_injective hc, decimal_injective hd⟩

namespace Preemptive

/-! ## Connections with two ends -/

/-- A connection: the bytes that came on it before its end, the contents of its thread's variables,
and the addresses of its two ends. -/
structure Peer where
  sent : Arrived
  locals : Locals
  /-- The address of the client. -/
  remote : InAddr
  /-- The address that the client reached the server under. -/
  own : InAddr
  /-- Whether `getsockname` succeeds. -/
  named : Bool

namespace Peer

variable (k : Peer)

/-- `getSocketAddress`, on the address that `getsockname` gives. -/
def address : Option Bytes := if k.named then some (inetNtoa k.own) else none

/-- The handler of the command that the connection names. -/
def program (depth : Nat) : Handler :=
  match operationOf k.locals k.sent with
  | some operation => Connection.program depth ⟨operation, k.address⟩
  | none => returnStatus k.locals.output

/-- The name that the server reads. -/
def userName : Bytes := (k.sent.rest.next k.locals.userName).text

/-- The port that the client has sent, the third field of its CONNECT. -/
def portSent : Bytes := (k.sent.whole[2]?.map Field.text).getD []

/-- A CONNECT has its three fields, with a port of up to six bytes. -/
def SendsPort : Prop :=
  (k.sent.next k.locals.message).text = Command.connect →
    3 ≤ k.sent.whole.length ∧ k.portSent.length ≤ 6

instance : Decidable k.SendsPort := inferInstanceAs (Decidable (_ → _))

/-- The user's listener as the network has it. -/
def listener : UserServerData := ⟨k.userName, k.portSent, inetNtoa k.remote⟩

end Peer

/-- The server on a network. -/
def network (cwd : Pos) (depth : Nat) : System Machine Peer Conditions Call.Answer Outcome where
  start k := k.program depth
  exec := perform cwd

abbrev NetworkPool := Pool Machine Peer Call.Answer Outcome

abbrev NetworkMove := Move Peer Conditions

/-- A connection that is accepted sends its port. -/
def Sends (mv : NetworkMove) : Prop := ∀ k, mv = .spawn k → k.SendsPort

/-- The server before the first connection, on any tree. -/
def networkPool (c : SysCalls) (t : Tree) : NetworkPool := ⟨⟨initP2pService c t, fun _ => 0⟩, []⟩

/-! ## What the records should be -/

/-- What a move does to the listeners of the connected users: an accepted CONNECT puts the one of
its connection, and what deletes a record takes the listener of that name. -/
def relisted (list : List UserServerData) (x : NetworkPool × NetworkMove) : List UserServerData :=
  match System.called x.1 x.2 with
  | some (k, .addElement _) => addElement k.listener list
  | some (_, .deleteElement u) => deleteElement u list
  | _ => list

/-- The listeners of the connected users, from the history alone. -/
def listeners (steps : List (NetworkPool × NetworkMove)) : List UserServerData :=
  steps.foldl relisted []

theorem listeners_snoc (steps : List (NetworkPool × NetworkMove)) (x : NetworkPool × NetworkMove) :
    listeners (steps ++ [x]) = relisted (listeners steps) x := by
  simp [listeners]

/-- The records are the listeners of the connected users, and LIST_USERS sends these. -/
structure Endpoints (steps : List (NetworkPool × NetworkMove)) (p : NetworkPool) : Prop where
  records : p.shared.store.connected = listeners steps
  listed : Lab.listUsers.act true p.shared.store =
    htonl success ++ htonl (listeners steps).length ++ (listeners steps).flatMap sendUser

/-- A CONNECT that is about to be recorded came over a connection with one address at both ends. -/
def OneAddress (p : NetworkPool) (mv : NetworkMove) : Prop :=
  ∀ k d, System.called p mv = some (k, .addElement d) → k.own = k.remote

/-! ## Only CONNECT appends -/

section Calls

variable {Q : Call → Prop} (hother : ∀ a : Call, (∀ d, a ≠ .addElement d) → Q a)

include hother

/-- A REGISTER adds to no list. -/
theorem registerUser.always (u : Bytes) : (registerUser u).Always fun a _ => Q a := by
  refine ⟨hother _ (by simp), fun (registered : Int) => ?_⟩
  unfold registerUser.checked
  split_ifs
  · refine ⟨hother _ (by simp), fun (made : Int) => ?_⟩
    unfold registerUser.made
    split <;> trivial
  all_goals trivial

theorem unregisterUser.always (depth : Nat) (u : Bytes) :
    (unregisterUser depth u).Always fun a _ => Q a := by
  refine ⟨hother _ (by simp), fun (registered : Int) => ?_⟩
  unfold unregisterUser.checked
  split_ifs
  · refine Program.always_bind ?_ fun removed => ?_
    · apply removeDirectory_always
      all_goals exact fun path => hother _ (by simp)
    · unfold unregisterUser.removed
      split
      · trivial
      · exact ⟨hother _ (by simp), fun _ => trivial⟩
  all_goals trivial

/-- A CONNECT adds the record of its name, its port and the address at the socket, if there is one.
-/
theorem connectUser.always {address : Option Bytes} {u port : Bytes}
    (hadd : ∀ a, address = some a → Q (.addElement ⟨u, port, a⟩)) :
    (connectUser address u port).Always fun a _ => Q a := by
  refine ⟨hother _ (by simp), fun (registered : Int) => ?_⟩
  unfold connectUser.checked
  split_ifs
  · refine ⟨hother _ (by simp), fun (connected : Int) => ?_⟩
    unfold connectUser.searched
    split
    · trivial
    · cases address with
      | none => trivial
      | some a => exact ⟨hadd a rfl, fun _ => trivial⟩
  all_goals trivial

theorem disconnectUser.always (u : Bytes) : (disconnectUser u).Always fun a _ => Q a := by
  refine ⟨hother _ (by simp), fun (registered : Int) => ?_⟩
  unfold disconnectUser.checked
  split_ifs
  · refine ⟨hother _ (by simp), fun (connected : Int) => ?_⟩
    unfold disconnectUser.searched
    split
    · exact ⟨hother _ (by simp), fun _ => trivial⟩
    · trivial
  all_goals trivial

theorem publishFile.always (u f d : Line) : (publishFile u f d).Always fun a _ => Q a := by
  refine ⟨hother _ (by simp), fun (registered : Int) => ?_⟩
  unfold publishFile.checked
  split
  · refine ⟨hother _ (by simp), fun (connected : Int) => ?_⟩
    unfold publishFile.connected
    split
    · refine ⟨hother _ (by simp), fun (file : Int) => ?_⟩
      unfold publishFile.searched
      split_ifs
      · refine ⟨hother _ (by simp), fun (opened : Option Descriptor) => ?_⟩
        cases opened with
        | none => trivial
        | some file =>
          refine ⟨hother _ (by simp), fun (written : Int) => ?_⟩
          unfold publishFile.written
          split <;> trivial
      all_goals trivial
    · trivial
  · trivial

theorem deleteFile.always (u f : Line) : (deleteFile u f).Always fun a _ => Q a := by
  refine ⟨hother _ (by simp), fun (file : Int) => ?_⟩
  unfold deleteFile.searched
  split_ifs
  · refine ⟨hother _ (by simp), fun (removed : Int) => ?_⟩
    unfold deleteFile.removed
    split <;> trivial
  all_goals trivial

theorem listUsers.always : listUsers.Always fun a _ => Q a := by
  refine ⟨hother _ (by simp), fun (users : Option (List UserServerData)) => ?_⟩
  cases users with
  | none => trivial
  | some users => exact ⟨hother _ (by simp), fun _ => trivial⟩

theorem listContent.always (u : Bytes) : (listContent u).Always fun a _ => Q a := by
  refine ⟨hother _ (by simp), fun (registered : Int) => ?_⟩
  unfold listContent.checked
  split
  · refine ⟨hother _ (by simp), fun (opened : Option Descriptor) => ?_⟩
    cases opened with
    | none => trivial
    | some directory =>
      exact ⟨hother _ (by simp), fun _ => ⟨hother _ (by simp), fun _ => trivial⟩⟩
  · trivial

/-- The one append of the handlers is that of a CONNECT, with the address of its connection. -/
theorem Connection.always {k : Connection}
    (hadd : ∀ u port a, k.operation = .change (.connect u port) → k.address = some a →
      Q (.addElement ⟨u.text, port.text, a⟩)) (depth : Nat) :
    (k.program depth).Always fun a _ => Q a := by
  obtain ⟨operation, address⟩ := k
  cases operation with
  | change r =>
    cases r with
    | register u => exact registerUser.always hother u.text
    | unregister u => exact unregisterUser.always hother depth u.text
    | connect u port => exact connectUser.always hother fun a ha => hadd u port a rfl ha
    | disconnect u => exact disconnectUser.always hother u.text
    | publish u f d => exact publishFile.always hother u f d
    | delete u f => exact deleteFile.always hother u f
  | listUsers _ => exact listUsers.always hother
  | listContent _ u => exact listContent.always hother u.text

end Calls

/-- What a thread appends is the record of its connection, with the address of the server's end. -/
def Appends (k : Peer) (a : Call) : Prop :=
  ∀ d, a = .addElement d → d = { k.listener with ipAddress := inetNtoa k.own }

/-- The operation of a connection is a CONNECT only if its command says so. -/
theorem connect_of_operationOf {k : Peer} {u port : Line}
    (h : operationOf k.locals k.sent = some (.change (.connect u port))) :
    (k.sent.next k.locals.message).text = Command.connect ∧
      u = k.sent.rest.next k.locals.userName ∧
      port = k.sent.rest.rest.next k.locals.userPort := by
  unfold operationOf at h
  dsimp only at h
  by_cases hc : (k.sent.next k.locals.message).text = Command.connect
  · have h1 : Command.connect ≠ Command.register := by decide
    have h2 : Command.connect ≠ Command.unregister := by decide
    rw [hc, if_neg h1, if_neg h2, if_pos rfl, Option.some.injEq, Operation.change.injEq,
      Request.connect.injEq] at h
    exact ⟨hc, h.1.symm, h.2.symm⟩
  · rw [if_neg hc] at h
    split_ifs at h <;> cases h

/-- A port of up to six bytes is read as it was sent. -/
theorem text_port {k : Peer} (hlen : 3 ≤ k.sent.whole.length) (hport : k.portSent.length ≤ 6) :
    (k.sent.rest.rest.next k.locals.userPort).text = k.portSent := by
  obtain ⟨⟨whole, part, hplain⟩, locals, remote, own, named⟩ := k
  match whole, hlen with
  | _ :: _ :: x :: _, _ =>
    have htake : x.text.take (portSize - 1) = x.text := List.take_of_length_le hport
    simp only [Arrived.rest, Arrived.next, htake]
    rfl

/-- A thread adds nothing but the record of its own connection. -/
theorem Peer.always {k : Peer} (h : k.SendsPort) (depth : Nat) :
    (k.program depth).Always fun a _ => Appends k a := by
  unfold Peer.program
  cases hop : operationOf k.locals k.sent with
  | none => trivial
  | some operation =>
    refine Connection.always (fun a ha d hd => absurd hd (ha d)) (fun u port a hu ha d hd => ?_)
      depth
    obtain rfl : operation = .change (.connect u port) := hu
    obtain ⟨hcommand, rfl, rfl⟩ := connect_of_operationOf hop
    obtain ⟨hlen, hport⟩ := h hcommand
    obtain rfl := Call.addElement.inj hd
    have haddress : a = inetNtoa k.own := by
      unfold Peer.address at ha
      split at ha
      · exact (Option.some.inj ha).symm
      · cases ha
    rw [text_port hlen hport, haddress]
    rfl

/-! ## Runs -/

/-- The invariant: the records are the listeners, and a thread appends its own record only. -/
structure Kept (steps : List (NetworkPool × NetworkMove)) (p : NetworkPool) : Prop where
  records : p.shared.store.connected = listeners steps
  always : p.Always fun k a _ => Appends k a

namespace Kept

variable {cwd : Pos} {depth : Nat} {steps : List (NetworkPool × NetworkMove)}
  {p p' : NetworkPool} {mv : NetworkMove}

/-- Before the first move nobody is connected. -/
theorem init (c : SysCalls) (t : Tree) : Kept [] (networkPool c t) where
  records := rfl
  always := fun _ ht => absurd ht List.not_mem_nil

/-- LIST_USERS sends the list, which is that of the listeners. -/
theorem endpoints (h : Kept steps p) : Endpoints steps p where
  records := h.records
  listed := by
    unfold Lab.listUsers.act listGetSize getElements
    rw [if_pos rfl, List.take_length, h.records]

/-- A move starts a program that appends its own record only, or takes a call of one. -/
theorem always_step (h : Kept steps p) (hs : (network cwd depth).StepIn Sends p mv p') :
    p'.Always fun k a _ => Appends k a :=
  hs.2 ▸ (network cwd depth).always_move p (fun k hk => Peer.always (hs.1 k hk) depth) h.always

/-- A move with one address at both ends keeps the invariant. Only `add_element` and
`delete_element` change the list, and each does to the listeners what it does to the records. -/
theorem step (h : Kept steps p) (hone : OneAddress p mv)
    (hs : (network cwd depth).StepIn Sends p mv p') : Kept (steps ++ [(p, mv)]) p' := by
  refine ⟨?_, h.always_step hs⟩
  have hm := (network cwd depth).moved p mv
  rw [show (network cwd depth).move p mv = p' from hs.2] at hm
  rw [listeners_snoc, ← h.records]
  cases hm with
  | spawned k => rfl
  | idle i env hc hr => simp only [relisted, hc]
  | @called env before after k a next ht hc hr =>
    change (perform cwd env a p.shared).2.store.connected = _
    by_cases hadd : ∃ d, a = .addElement d
    · obtain ⟨d, rfl⟩ := hadd
      have hd : d = { k.listener with ipAddress := inetNtoa k.own } := h.always.call ht d rfl
      rw [hone k d hc] at hd
      simp only [relisted, hc]
      rw [hd]
      rfl
    · have hadd : ∀ d, a ≠ .addElement d := fun d hd => hadd ⟨d, hd⟩
      by_cases hdelete : ∃ u, a = .deleteElement u
      · obtain ⟨u, rfl⟩ := hdelete
        simp only [relisted, hc]
        rfl
      · have hdelete : ∀ u, a ≠ .deleteElement u := fun u hu => hdelete ⟨u, hu⟩
        rw [connected_perform hadd hdelete]
        unfold relisted
        rw [hc]
        split
        · rename_i d hcall
          exact absurd (Prod.mk.inj (Option.some.inj hcall)).2 (hadd d)
        · rename_i u hcall
          exact absurd (Prod.mk.inj (Option.some.inj hcall)).2 (hdelete u)
        · rfl

/-- A record from a connection with two addresses is not the listener of its user. -/
theorem oneAddress (h : Kept steps p) (hs : (network cwd depth).StepIn Sends p mv p')
    (hend : Endpoints (steps ++ [(p, mv)]) p') : OneAddress p mv := by
  intro k d hcall
  have hm := (network cwd depth).moved p mv
  rw [show (network cwd depth).move p mv = p' from hs.2] at hm
  have hrecords := hend.records
  rw [listeners_snoc, ← h.records] at hrecords
  simp only [relisted, hcall] at hrecords
  cases hm with
  | spawned k => cases hcall
  | idle i env hc hr => rw [hc] at hcall; cases hcall
  | @called env before after k' a next ht hc hr =>
    rw [hc] at hcall
    obtain ⟨rfl, rfl⟩ := Prod.mk.inj (Option.some.inj hcall)
    have hd : d = { k'.listener with ipAddress := inetNtoa k'.own } := h.always.call ht d rfl
    have hlast : addElement d p.shared.store.connected =
        addElement k'.listener p.shared.store.connected := hrecords
    obtain ⟨-, hd'⟩ := List.append_singleton_inj.1 hlast
    rw [hd] at hd'
    exact inetNtoa_injective (congrArg UserServerData.ipAddress hd')

end Kept

/-- **Listed addresses lead to the listed users** all along a run exactly when every recorded
CONNECT came over a connection with one address at both ends. -/
theorem endpoints_iff {cwd : Pos} {depth : Nat} {c : SysCalls} {t : Tree} {p : NetworkPool}
    {steps : List (NetworkPool × NetworkMove)}
    (h : Run ((network cwd depth).StepIn Sends) (networkPool c t) steps p) :
    (∀ steps' p', steps' <+: steps →
      Run ((network cwd depth).StepIn Sends) (networkPool c t) steps' p' →
        Endpoints steps' p') ↔ Guarded OneAddress steps :=
  h.forall_prefix_iff (Kept.init c t) (fun _ _ hI => hI.endpoints)
    (fun _ _ _ _ hI hG hs => hI.step hG hs) (fun _ _ _ _ hI hs hP => hI.oneAddress hs hP)

/-- The connection of a CONNECT from 10.0.0.2. -/
def alicePeer (own : InAddr) : Peer where
  sent := .of (cstring "CONNECT\x00alice\x004001\x00")
  locals := .zeros
  remote := ⟨10, 0, 0, 2⟩
  own := own
  named := true

def alicePool : NetworkPool := networkPool (posix []) aliceMachine.store.tree

/-- The connection is accepted and its handler runs to its end. -/
def aliceMoves (own : InAddr) : List NetworkMove :=
  [.spawn (alicePeer own), .run 0 posixConditions, .run 0 posixConditions, .run 0 posixConditions]

theorem run_aliceMoves (own : InAddr) :
    Run ((network [] 8).StepIn Sends) alicePool ((network [] 8).schedule alicePool (aliceMoves own))
      ((aliceMoves own).foldl (network [] 8).move alicePool) := by
  apply System.run_schedule_in
  intro mv hmv k hk
  subst hk
  have hpeer : k = alicePeer own := by simpa [aliceMoves] using hmv
  rw [hpeer]
  have hsends : (alicePeer ⟨10, 0, 0, 2⟩).SendsPort := by decide
  exact hsends

/-- Alice's connection has one address on the server's side and another on hers. -/
theorem alice_endpoints :
    (∀ steps' p', steps' <+: (network [] 8).schedule alicePool (aliceMoves ⟨10, 0, 0, 2⟩) →
      Run ((network [] 8).StepIn Sends) alicePool steps' p' → Endpoints steps' p') ↔
        Guarded OneAddress ((network [] 8).schedule alicePool (aliceMoves ⟨10, 0, 0, 2⟩)) :=
  endpoints_iff (run_aliceMoves _)

/-- The server is reached at 10.0.0.1, and that is where LIST_USERS sends everybody. -/
theorem alice_listed_at_server :
    ¬ ∀ (t : Tree) (steps : List (NetworkPool × NetworkMove)) (p : NetworkPool),
      Run ((network [] 8).StepIn Sends) (networkPool (posix []) t) steps p →
        Endpoints steps p := by
  intro h
  exact absurd (h _ _ _ (run_aliceMoves ⟨10, 0, 0, 1⟩)).records (by decide)

end Preemptive

end DistributedSystems.Lab
