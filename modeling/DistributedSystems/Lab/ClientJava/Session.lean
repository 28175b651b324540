import DistributedSystems.Lab.ClientJava.Framing
import DistributedSystems.Lab.ClientJava.Streams
import DistributedSystems.Lab.ServerC.Server

/-!
# The connection of a client (`clientjava/client.java`)

Whether a user is connected is kept twice: in the client's `connected`, and in the list of the
server. The four methods that have to do with it are here, each with the request that it sends, as
they change the two together. The server answers the bytes of a request with `processRequest`, or
the connection to it cannot be opened.

The two agree as long as UNREGISTER takes no connected user out of the list, and DISCONNECT is
answered by a server that finds the user registered (`connection_agreement_iff`). The client clears
its flag after every other DISCONNECT, and never after an UNREGISTER.
-/

namespace DistributedSystems.Lab

open Fs Support

/-- The conditions that a request meets at the server. -/
structure Conditions where
  calls : SysCalls
  allocated : Bool
  locals : Locals
  address : Option Bytes

/-- `serverThread` says whether `server_Thread` is not null. -/
structure ClientState where
  connected : Bool
  connectedUserName : Option JString
  serverThread : Bool
deriving DecidableEq

structure Session where
  client : ClientState
  store : Store

/-- A request to the server: the number that is read back, if one is, and the store afterwards. -/
def Conditions.exchange (x : Conditions) (request : Bytes) (s : Store) : Option Int × Store :=
  let r := processRequest x.calls x.allocated x.locals ⟨received request, x.address⟩ s
  ((readInt r.1).map Prod.fst, r.2)

/-- The same, when there may be no connection. -/
def send (server : Option Conditions) (request : Bytes) (s : Store) : Option Int × Store :=
  match server with
  | none => (none, s)
  | some x => x.exchange request s

namespace Session

variable (user : JString) (server : Option Conditions) (s : Session)

def register : Session :=
  { s with store := (send server (parseCommand .register ++ parseString user) s.store).2 }

def unregister : Session :=
  { s with store := (send server (parseCommand .unregister ++ parseString user) s.store).2 }

/-- What `connect` makes of the number that it has received, or of an exception. The thread is
closed when the number is not 0. -/
def connectAnswered (client : ClientState) : Option Int → ClientState
  | none => { client with serverThread := false }
  | some receiveOutput =>
    if receiveOutput = 1 ∨ receiveOutput = 2 ∨ receiveOutput = 3 then
      { client with serverThread := false }
    else ⟨true, some user, receiveOutput = 0⟩

def connect (serverPort : Nat) : Session :=
  if s.client.connected then s
  else
    let port := cstring (toString serverPort) ++ [nul]
    let r := send server (parseCommand .connect ++ parseString user ++ port) s.store
    ⟨connectAnswered user s.client r.1, r.2⟩

def disconnect : Session :=
  if s.client.connected = false then s
  else if s.client.connectedUserName ≠ some user then s
  else
    let r := send server (parseCommand .disconnect ++ parseString user) s.store
    -- the clean-up ends with a null pointer exception when there is no thread to close
    ⟨if s.client.serverThread then ⟨false, none, false⟩ else s.client, r.2⟩

end Session

/-- The name that the server reads where the client has written a user. -/
def serverName (user : JString) : Bytes := (fieldOf (parseString user)).take (maxSize - 1)

/-- The commands of a client that always names the same user, and requests of others. -/
inductive SessionEvent
  | register (server : Option Conditions)
  | unregister (server : Option Conditions)
  | connect (server : Option Conditions) (serverPort : Nat)
  | disconnect (server : Option Conditions)
  | other (x : Conditions) (request : Bytes)

def Session.next (user : JString) (s : Session) : SessionEvent → Session
  | .register server => s.register user server
  | .unregister server => s.unregister user server
  | .connect server serverPort => s.connect user server serverPort
  | .disconnect server => s.disconnect user server
  | .other x request => { s with store := (x.exchange request s.store).2 }

/-- The bytes ask for no change in the name of the user. -/
def Avoids (user : Bytes) (x : Conditions) (request : Bytes) : Prop :=
  ∀ r, operationOf x.locals (.of request) = some (.change r) → r.user ≠ user

/-- Other clients do not name the user. -/
def SessionStep (user : JString) (s : Session) (e : SessionEvent) (s' : Session) : Prop :=
  (∀ x request, e = .other x request → Avoids (serverName user) x request) ∧ s.next user e = s'

/-- A client that has just been started, and a server that has. -/
def Session.start (t : Tree) : Session := ⟨⟨false, none, false⟩, ⟨t, []⟩⟩

/-! ## What the server does with a request -/

section Requests

/-- The command of a request and the name in it. -/
theorem arrived_request (type : Commands) (user : JString) (more : Bytes) :
    ∃ rest : Arrived, ∀ b : Buffer maxSize,
      ((Arrived.of (parseCommand type ++ parseString user ++ more)).next b).text =
          utf8 type.name ∧
        (Arrived.of (parseCommand type ++ parseString user ++ more)).rest.next b =
          Line.of (serverName user) ∧
        (Arrived.of (parseCommand type ++ parseString user ++ more)).rest.rest = rest := by
  obtain ⟨ch, excess, hch, hfield⟩ := exists_fieldOf (nul_mem_parseString user)
  have hbytes : parseCommand type ++ parseString user ++ more =
      utf8 type.name ++ nul :: (fieldOf (parseString user) ++ ch :: (excess ++ more)) := by
    rw [parseCommand_eq]
    conv_lhs => rw [hfield]
    simp
  rw [hbytes, Arrived.of_field (plain_name type) (Or.inr rfl),
    Arrived.of_field (plain_fieldOf _) hch]
  refine ⟨_, fun b => ⟨?_, ?_, rfl⟩⟩
  · unfold Arrived.next Line.of
    dsimp only
    exact take_name type
  · rfl

theorem exchange_of_operation {x : Conditions} {request : Bytes} {s : Store} {r : Request}
    (h : operationOf x.locals (.of request) = some (.change r)) :
    x.exchange request s =
      (some (serve x.calls x.address r s).1, (serve x.calls x.address r s).2) := by
  have hprocess := processRequest_arrived x.calls x.allocated x.locals x.address s (.of request)
  rw [Arrived.bytes_of, h] at hprocess
  have hstatus : Documented (serve x.calls x.address r s) := serve_status x.calls s x.address r
  unfold Documented at hstatus
  have hread := readInt_htonl (serve x.calls x.address r s).1 []
  rw [List.append_nil, asInt_eq (by omega)] at hread
  unfold Conditions.exchange
  simp only [hprocess, Operation.run, hread, Option.map_some]

theorem exchange_register (x : Conditions) (user : JString) (s : Store) :
    x.exchange (parseCommand .register ++ parseString user) s =
      (some (registerUser.act x.calls (serverName user) s).1,
        (registerUser.act x.calls (serverName user) s).2) := by
  obtain ⟨rest, harrived⟩ := arrived_request .register user []
  obtain ⟨hcommand, -, -⟩ := harrived x.locals.message
  obtain ⟨-, hname, -⟩ := harrived x.locals.userName
  rw [List.append_nil] at hcommand hname
  refine exchange_of_operation (r := .register (Line.of (serverName user))) ?_
  simp only [operationOf, hcommand, hname]
  rfl

theorem exchange_unregister (x : Conditions) (user : JString) (s : Store) :
    x.exchange (parseCommand .unregister ++ parseString user) s =
      (some (unregisterUser.act x.calls (serverName user) s).1,
        (unregisterUser.act x.calls (serverName user) s).2) := by
  obtain ⟨rest, harrived⟩ := arrived_request .unregister user []
  obtain ⟨hcommand, -, -⟩ := harrived x.locals.message
  obtain ⟨-, hname, -⟩ := harrived x.locals.userName
  rw [List.append_nil] at hcommand hname
  refine exchange_of_operation (r := .unregister (Line.of (serverName user))) ?_
  simp only [operationOf, hcommand, hname]
  rfl

/-- The port is what comes after the name, which may begin with what the name has left behind. -/
theorem exchange_connect (x : Conditions) (user : JString) (port : Bytes) (s : Store) :
    ∃ userPort : Bytes, x.exchange (parseCommand .connect ++ parseString user ++ port) s =
      (some (connectUser.act x.calls x.address (serverName user) userPort s).1,
        (connectUser.act x.calls x.address (serverName user) userPort s).2) := by
  obtain ⟨rest, harrived⟩ := arrived_request .connect user port
  obtain ⟨hcommand, -, -⟩ := harrived x.locals.message
  obtain ⟨-, hname, hrest⟩ := harrived x.locals.userName
  refine ⟨(rest.next x.locals.userPort).text, exchange_of_operation
    (r := .connect (Line.of (serverName user)) (rest.next x.locals.userPort)) ?_⟩
  simp only [operationOf, hcommand, hname, hrest]
  rfl

theorem exchange_disconnect (x : Conditions) (user : JString) (s : Store) :
    x.exchange (parseCommand .disconnect ++ parseString user) s =
      (some (disconnectUser.act x.calls (serverName user) s).1,
        (disconnectUser.act x.calls (serverName user) s).2) := by
  obtain ⟨rest, harrived⟩ := arrived_request .disconnect user []
  obtain ⟨hcommand, -, -⟩ := harrived x.locals.message
  obtain ⟨-, hname, -⟩ := harrived x.locals.userName
  rw [List.append_nil] at hcommand hname
  refine exchange_of_operation (r := .disconnect (Line.of (serverName user))) ?_
  simp only [operationOf, hcommand, hname]
  rfl

/-- Bytes that ask for no change leave the store as it is. -/
theorem exchange_other {x : Conditions} {request : Bytes} {s : Store}
    (h : ∀ r, operationOf x.locals (.of request) ≠ some (.change r)) :
    (x.exchange request s).2 = s := by
  have hprocess := processRequest_arrived x.calls x.allocated x.locals x.address s (.of request)
  rw [Arrived.bytes_of] at hprocess
  unfold Conditions.exchange
  dsimp only
  rw [hprocess]
  cases hop : operationOf x.locals (.of request) with
  | none => rfl
  | some op =>
    cases op with
    | change r => exact absurd hop (h r)
    | listUsers userName => rfl
    | listContent useropName userName => rfl

end Requests

/-! ## Agreement -/

/-- The client takes itself for connected exactly if the server has a record of its user. -/
def Agreement (user : JString) (s : Session) : Prop :=
  (s.client.connected = true ∧ s.client.connectedUserName = some user) ↔
    serverName user ∈ userNames s.store.connected

/-- UNREGISTER does not reach `delete_element` while the client is connected, and DISCONNECT does
not miss it. -/
def Clean (user : JString) (s : Session) : SessionEvent → Prop
  | .unregister (some x) =>
    s.client.connected = true →
      ¬ (isusrRegistered x.calls s.store.tree (serverName user) = 1 ∧
        (removeDirectory x.calls s.store.tree (userPath (serverName user))).1 ≠ -1)
  | .disconnect server =>
    s.client.connected = true →
      ∃ x, server = some x ∧ isusrRegistered x.calls s.store.tree (serverName user) = 1
  | _ => True

/-- The invariant of the clean runs. -/
structure Kept (user : JString) (s : Session) : Prop where
  agree : s.client.connected = true ↔ serverName user ∈ userNames s.store.connected
  named : s.client.connected = true →
    s.client.connectedUserName = some user ∧ s.client.serverThread = true
  nodup : (userNames s.store.connected).Nodup

namespace Kept

variable {user : JString} {s : Session}

theorem agreement (h : Kept user s) : Agreement user s :=
  ⟨fun hc => h.agree.1 hc.1, fun hu => ⟨h.agree.2 hu, (h.named (h.agree.2 hu)).1⟩⟩

theorem start (t : Tree) : Kept user (Session.start t) :=
  ⟨by simp [Session.start], fun h => absurd h (by simp [Session.start]), List.nodup_nil⟩

/-- A step that changes neither the client nor the list. -/
theorem with_store (h : Kept user s) {store : Store} (hs : store.connected = s.store.connected) :
    Kept user { s with store := store } :=
  ⟨hs ▸ h.agree, h.named, hs ▸ h.nodup⟩

theorem register (h : Kept user s) (server : Option Conditions) :
    Kept user (s.register user server) := by
  unfold Session.register send
  cases server with
  | none => exact h
  | some x =>
    dsimp only
    rw [exchange_register]
    apply h.with_store
    rcases registerUser.act_cases x.calls s.store (serverName user) with
      ⟨t, -, -, heq⟩ | ⟨-, -, heq⟩ <;> rw [heq]

theorem unregister (h : Kept user s) {server : Option Conditions}
    (hG : Clean user s (.unregister server)) : Kept user (s.unregister user server) := by
  unfold Session.unregister send
  cases server with
  | none => exact h
  | some x =>
    dsimp only
    rw [exchange_unregister]
    apply h.with_store
    rcases unregisterUser.act_cases x.calls s.store (serverName user) with
      ⟨hreg, hdir, heq⟩ | ⟨-, -, heq⟩ | ⟨-, -, heq⟩
    · have hnot : serverName user ∉ userNames s.store.connected := fun hu =>
        hG (h.agree.2 hu) ⟨hreg, hdir⟩
      rw [heq]
      exact deleteElement_of_notMem hnot
    · rw [heq]
    · rw [heq]

theorem connect (h : Kept user s) (server : Option Conditions) (serverPort : Nat) :
    Kept user (s.connect user server serverPort) := by
  unfold Session.connect
  by_cases hc : s.client.connected = true
  · rw [if_pos hc]
    exact h
  · rw [if_neg hc]
    have hnot : serverName user ∉ userNames s.store.connected := mt h.agree.2 hc
    cases server with
    | none => exact ⟨h.agree, fun hc' => absurd hc' hc, h.nodup⟩
    | some x =>
      obtain ⟨userPort, hexchange⟩ := exchange_connect x user
        (cstring (toString serverPort) ++ [nul]) s.store
      unfold send
      dsimp only
      rw [hexchange]
      rcases connectUser.act_cases x.calls s.store x.address (serverName user) userPort with
        ⟨a, -, -, -, heq⟩ | ⟨-, hne, heq⟩
      · rw [heq]
        refine ⟨?_, fun _ => ⟨rfl, rfl⟩, nodup_addElement h.nodup hnot⟩
        simp [Session.connectAnswered]
      · have hrefused := connectUser.act_refused x.calls s.store hne
        unfold Session.connectAnswered
        dsimp only
        rw [if_pos hrefused, heq]
        exact ⟨h.agree, fun hc' => absurd hc' hc, h.nodup⟩

/-- DISCONNECT ends with the flag cleared. -/
theorem disconnect_eq (h : Kept user s) (hc : s.client.connected = true)
    (server : Option Conditions) :
    s.disconnect user server =
      ⟨⟨false, none, false⟩,
        (send server (parseCommand .disconnect ++ parseString user) s.store).2⟩ := by
  obtain ⟨hname, hthread⟩ := h.named hc
  unfold Session.disconnect
  rw [if_neg (by simp [hc]), if_neg (by simp [hname]), if_pos hthread]

/-- The list that DISCONNECT leaves, when the name is in it. -/
theorem connected_send_disconnect (hu : serverName user ∈ userNames s.store.connected)
    (server : Option Conditions) :
    ((∃ x, server = some x ∧ isusrRegistered x.calls s.store.tree (serverName user) = 1) ∧
      (send server (parseCommand .disconnect ++ parseString user) s.store).2.connected =
        deleteElement (serverName user) s.store.connected) ∨
    ((¬ ∃ x, server = some x ∧ isusrRegistered x.calls s.store.tree (serverName user) = 1) ∧
      (send server (parseCommand .disconnect ++ parseString user) s.store).2.connected =
        s.store.connected) := by
  cases server with
  | none => exact Or.inr ⟨by simp, rfl⟩
  | some x =>
    unfold send
    dsimp only
    rw [exchange_disconnect]
    rcases disconnectUser.act_cases x.calls s.store (serverName user) with
      ⟨hreg, -, heq⟩ | ⟨hreg | hnot, -, heq⟩
    · rw [heq]
      exact Or.inl ⟨⟨x, rfl, hreg⟩, rfl⟩
    · rw [heq]
      refine Or.inr ⟨?_, rfl⟩
      rintro ⟨y, hy, hreg'⟩
      exact hreg (Option.some.inj hy ▸ hreg')
    · exact absurd hu hnot

theorem disconnect (h : Kept user s) {server : Option Conditions}
    (hG : Clean user s (.disconnect server)) : Kept user (s.disconnect user server) := by
  by_cases hc : s.client.connected = true
  · rw [h.disconnect_eq hc]
    rcases connected_send_disconnect (h.agree.1 hc) server with ⟨-, heq⟩ | ⟨hnot, -⟩
    · refine ⟨?_, fun hc' => ?_, ?_⟩
      · dsimp only
        rw [heq, mem_userNames_deleteElement h.nodup]
        simp
      · cases hc'
      · dsimp only
        rw [heq]
        exact nodup_deleteElement h.nodup _
    · exact absurd (hG hc) hnot
  · unfold Session.disconnect
    rw [if_pos (by simpa using hc)]
    exact h

theorem other (h : Kept user s) {x : Conditions} {request : Bytes}
    (ha : Avoids (serverName user) x request) :
    Kept user { s with store := (x.exchange request s.store).2 } := by
  by_cases hop : ∃ r, operationOf x.locals (.of request) = some (.change r)
  · obtain ⟨r, hr⟩ := hop
    have hne : r.user ≠ serverName user := ha r hr
    rw [exchange_of_operation hr]
    rcases connected_serve x.calls s.store x.address r with heq | ⟨d, hd, hnew, heq⟩ | heq
    · exact h.with_store heq
    · refine ⟨?_, h.named, ?_⟩
      · dsimp only
        rw [heq, userNames_addElement, hd, List.mem_append, List.mem_singleton, h.agree]
        exact ⟨Or.inl, fun hu => hu.resolve_right hne.symm⟩
      · dsimp only
        rw [heq]
        exact nodup_addElement h.nodup (hd ▸ hnew)
    · refine ⟨?_, h.named, ?_⟩
      · dsimp only
        rw [heq, mem_userNames_deleteElement h.nodup, h.agree]
        exact ⟨fun hu => ⟨hu, hne.symm⟩, And.left⟩
      · dsimp only
        rw [heq]
        exact nodup_deleteElement h.nodup _
  · rw [exchange_other fun r hr => hop ⟨r, hr⟩]
    exact h

theorem step {e : SessionEvent} {s' : Session} (h : Kept user s) (hG : Clean user s e)
    (hs : SessionStep user s e s') : Kept user s' := by
  obtain ⟨hothers, rfl⟩ := hs
  cases e with
  | register server => exact h.register server
  | unregister server => exact h.unregister hG
  | connect server serverPort => exact h.connect server serverPort
  | disconnect server => exact h.disconnect hG
  | other x request => exact h.other (hothers x request rfl)

/-- A step that is not clean leaves the flag or the record behind. -/
theorem clean {e : SessionEvent} {s' : Session} (h : Kept user s) (hs : SessionStep user s e s')
    (ha : Agreement user s') : Clean user s e := by
  obtain ⟨-, rfl⟩ := hs
  cases e with
  | register server => trivial
  | connect server serverPort => trivial
  | other x request => trivial
  | unregister server =>
    cases server with
    | none => trivial
    | some x =>
      rintro hc ⟨hreg, hdir⟩
      have hin := ha.1 ⟨hc, (h.named hc).1⟩
      unfold Session.next Session.unregister send at hin
      dsimp only at hin
      rw [exchange_unregister] at hin
      rcases unregisterUser.act_cases x.calls s.store (serverName user) with
        ⟨-, -, heq⟩ | ⟨-, hdir', -⟩ | ⟨hreg', -⟩
      · rw [heq] at hin
        exact ((mem_userNames_deleteElement h.nodup).1 hin).2 rfl
      · exact hdir hdir'
      · exact hreg' hreg
  | disconnect server =>
    intro hc
    have hu := h.agree.1 hc
    rcases connected_send_disconnect hu server with ⟨hreg, -⟩ | ⟨-, heq⟩
    · exact hreg
    · unfold Agreement Session.next at ha
      dsimp only at ha
      rw [h.disconnect_eq hc] at ha
      dsimp only at ha
      rw [heq] at ha
      have hset := ha.2 hu
      cases hset.1

end Kept

/-- **The client and the server agree after every command exactly if every step is clean.** -/
theorem connection_agreement_iff {user : JString} {t : Tree}
    {steps : List (Session × SessionEvent)} {s : Session}
    (h : Run (SessionStep user) (Session.start t) steps s) :
    (∀ steps' s', steps' <+: steps → Run (SessionStep user) (Session.start t) steps' s' →
        Agreement user s') ↔
      Guarded (Clean user) steps :=
  h.forall_prefix_iff (I := fun _ s => Kept user s) (P := fun _ s => Agreement user s)
    (Kept.start t) (fun _ _ hk => hk.agreement) (fun _ _ _ _ hk hG hs => hk.step hG hs)
    fun _ _ _ _ hk hs ha => hk.clean hs ha

/-- The event is a command of the client. -/
def SessionEvent.command : SessionEvent → Bool
  | .other _ _ => false
  | _ => true

theorem step_command {user : JString} {s : Session} {e : SessionEvent} (h : e.command = true) :
    SessionStep user s e (s.next user e) := by
  refine ⟨fun x request he => ?_, rfl⟩
  rw [he] at h
  cases h

def aliceUser : JString := Utf16.encode "alice".toList

/-- A server on which everything succeeds. -/
def reachedServer : Option Conditions := some ⟨posix [], true, .zeros, some (cstring "10.0.0.2")⟩

/-- A client that has been started. -/
def startedSession : Session := .start (initP2pService (posix []) .empty).tree

def registeredSession : Session := startedSession.next aliceUser (.register reachedServer)

def connectedSession : Session := registeredSession.next aliceUser (.connect reachedServer 4200)

theorem run_connected :
    Run (SessionStep aliceUser) startedSession
      [(startedSession, .register reachedServer),
        (registeredSession, .connect reachedServer 4200)] connectedSession :=
  (Run.nil.snoc (a := .register reachedServer) (step_command rfl)).snoc (step_command rfl)

theorem disconnect_agrees :
    ∃ steps s, Run (SessionStep aliceUser) startedSession steps s ∧
      steps.map Prod.snd = [.register reachedServer, .connect reachedServer 4200,
        .disconnect reachedServer] ∧
      ∀ steps' s', steps' <+: steps → Run (SessionStep aliceUser) startedSession steps' s' →
        Agreement aliceUser s' := by
  have hr := run_connected.snoc (a := .disconnect reachedServer) (step_command rfl)
  refine ⟨_, _, hr, rfl, (connection_agreement_iff hr).2 ?_⟩
  rw [guarded_snoc]
  refine ⟨fun x hx => ?_, fun _ => ⟨_, rfl, by decide⟩⟩
  rcases List.mem_cons.1 hx with rfl | hx
  · trivial
  · rw [List.mem_singleton.1 hx]
    trivial

/-- The record of the user is deleted, and the flag stays. -/
theorem unregister_keeps_flag :
    ∃ steps s, Run (SessionStep aliceUser) startedSession steps s ∧
      steps.map Prod.snd = [.register reachedServer, .connect reachedServer 4200,
        .unregister reachedServer] ∧
      s.client = ⟨true, some aliceUser, true⟩ ∧ userNames s.store.connected = [] ∧
      ¬ Agreement aliceUser s := by
  have hr := run_connected.snoc (a := .unregister reachedServer) (step_command rfl)
  refine ⟨_, _, hr, rfl, by decide, by decide, fun ha => ?_⟩
  exact absurd (ha.1 (by decide)) (by decide)

end DistributedSystems.Lab
