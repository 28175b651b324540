import DistributedSystems.Lab.ClientJava.Requests
import DistributedSystems.Lab.ServerC.Addresses

/-!
# The clients of a server (`clientjava/client.java`, `serverc/server.c`)

Any number of clients, each with the threads and ports of its own, and the server that they share.
A turn of a client is answered by the server as it is, and a GET_FILE by whichever client listens at
the address and port that the table of the client has.

The abstract state is the `Directory`: who is connected, under which name and at which port. As long
as the turns are orderly, the list of the server has exactly the entries of the directory, and
exactly its clients listen (`agrees_of_run`).
-/

namespace DistributedSystems.Lab

open Fs Support CommandLine

/-! ## Processes -/

/-- A client: its shell, and the ports of the `ServerSocket`s of its threads. -/
structure ClientProcess where
  shell : Shell
  ports : List Nat

namespace ClientProcess

def start : ClientProcess := ⟨.start, []⟩

/-- The ports at which a thread accepts connections. -/
def listening (k : ClientProcess) : List Nat :=
  ((k.shell.fields.threads.zip k.ports).filter fun x => x.1.running).map Prod.snd

/-- The client has not ended, and takes itself for connected under the name. -/
structure On (k : ClientProcess) (user : JString) : Prop where
  alive : ∀ e, k.shell.progress ≠ .finished e
  connected : k.shell.fields.connected = true
  named : k.shell.fields.connectedUserName = some user

end ClientProcess

/-- What a turn meets besides the processes. `files` are the contents of what each client shares. -/
structure Surroundings (n : Nat) where
  server : Option Conditions
  localPort : Option Nat
  toUppercase : JString → JString
  files : Fin n → List Char → Option Bytes
  writable : Bool

/-- A line that is typed, or what is left of `main`. -/
inductive Doing
  | line (input : Option JString)
  | finish

structure ServiceEvent (n : Nat) where
  client : Fin n
  doing : Doing
  meets : Surroundings n

structure P2pService (n : Nat) where
  store : Store
  clients : Fin n → ClientProcess

/-- The entry of the server's list for a client at an address. -/
def listenerAt (host : InAddr) (user : JString) (port : Nat) : UserServerData :=
  ⟨serverName user, portText port, inetNtoa host⟩

namespace P2pService

variable {n : Nat} (host : Fin n → InAddr)

/-- Who accepts a connection to an address and a port. -/
def listener (w : P2pService n) (d : UsersData) : Option (Fin n) :=
  (List.finRange n).find? fun j =>
    decide (Utf8.encode d.ip = inetNtoa (host j)) &&
      match portOf d with
      | .ok port => (w.clients j).listening.contains port
      | .error _ => false

def network (w : P2pService n) (meets : Surroundings n) : Network where
  server := meets.server.map (·.answers w.store)
  localPort := meets.localPort
  toUppercase := meets.toUppercase
  peer d := (w.listener host d).map fun j => ManageRequest.run .utf8 (meets.files j)
  writable := meets.writable

def turn (w : P2pService n) (e : ServiceEvent n) : Turn :=
  match e.doing with
  | .line input => .line input (w.network host e.meets)
  | .finish => .finish (w.network host e.meets)

/-- The store after a request, if there is one and the server is reached. -/
def handled (s : Store) (server : Option Conditions) (request : Option Bytes) : Store :=
  match server, request with
  | some x, some bytes => (x.exchange bytes s).2
  | _, _ => s

/-- A client takes a turn, and the server handles the request that it sends. -/
def next (toUpperCase : JString → JString) (w : P2pService n) (e : ServiceEvent n) :
    P2pService n :=
  let k := w.clients e.client
  let turn := w.turn host e
  { store := handled w.store e.meets.server (k.shell.sent toUpperCase turn)
    clients := Function.update w.clients e.client
      ⟨k.shell.next toUpperCase turn,
        k.ports ++ (k.shell.opened toUpperCase turn).toList⟩ }

def Step (toUpperCase : JString → JString) (w : P2pService n) (e : ServiceEvent n)
    (w' : P2pService n) : Prop :=
  Shell.Step toUpperCase (w.clients e.client).shell (w.turn host e)
      ((w.clients e.client).shell.next toUpperCase (w.turn host e)) ∧
    w.next host toUpperCase e = w'

/-- Clients that have just been started, and a server that has, on any tree. -/
def start (c : SysCalls) (t : Tree) : P2pService n :=
  ⟨initP2pService c t, fun _ => .start⟩

/-! ## Orderly turns -/

variable (owner : Bytes → Fin n) (toUpperCase : JString → JString)

/-- A CONNECT in a name of the client's own, over a connection with one address at both ends. The
port is a free one of the host. -/
structure ConnectsWell (w : P2pService n) (e : ServiceEvent n) (user : JString) : Prop where
  own : ∃ name : UserName, user = name.jstring ∧ owner (serverName user) = e.client
  address : ∀ x a, e.meets.server = some x → x.address = some a → a = inetNtoa (host e.client)
  /-- What the server finds in its buffer when nothing comes is no command that changes the list. -/
  silent : ∀ x, e.meets.server = some x → e.meets.localPort = none →
    ∀ r, operationOf x.locals (.of []) ≠ some (.change r)
  free : ∀ port, e.meets.localPort = some port →
    port ≤ 0xFFFF ∧ ∀ j, host j = host e.client → port ∉ (w.clients j).listening

/-- The server is reached and finds the user registered. -/
def Answered (w : P2pService n) (e : ServiceEvent n) (user : JString) : Prop :=
  ∃ x, e.meets.server = some x ∧ isusrRegistered x.calls w.store.tree (serverName user) = 1

/-- A CONNECT goes well, a DISCONNECT and the end of a connected client are answered, and no
connected user is unregistered. The other commands are free, whatever they name. -/
def Orderly (w : P2pService n) (e : ServiceEvent n) : Prop :=
  let c := (w.clients e.client).shell.fields
  match e.doing with
  | .line none => True
  | .line (some input) =>
    match interpret toUpperCase input with
    | .ok (.connect user) => c.connected = false → w.ConnectsWell host owner e user
    | .ok (.disconnect user) =>
      c.connected = true → c.connectedUserName = some user → w.Answered e user
    | .ok (.unregister user) =>
      e.meets.server.isSome → serverName user ∉ userNames w.store.connected
    | _ => True
  | .finish => ∀ user, c.connected = true → c.connectedUserName = some user → w.Answered e user

/-- The list of the server has exactly the clients that are connected, each where it listens, and
nobody else listens. -/
structure Agrees (w : P2pService n) : Prop where
  records : ∀ d, d ∈ w.store.connected ↔ ∃ i user port, (w.clients i).On user ∧
    port ∈ (w.clients i).listening ∧ d = listenerAt (host i) user port
  nodup : (userNames w.store.connected).Nodup
  listens : ∀ i user, (w.clients i).On user → ∃ port, (w.clients i).listening = [port]
  quiet : ∀ i, (∀ user, ¬ (w.clients i).On user) → (w.clients i).listening = []

end P2pService

/-! ## One process -/

namespace ClientProcess

open ClientFields (Quiet SameBut)

/-- The process is connected under a name and listens at a port, or it is not and does not. -/
inductive Stands : ClientProcess → Option (UserName × Nat) → Prop
  | on {before : List ServerThread} {ports : List Nat} {progress : Progress} (user : UserName)
      (port : Nat) (usersData : JString → Option UsersData) (hquiet : Quiet before)
      (hlen : before.length = ports.length) (halive : ∀ e, progress ≠ .finished e) :
      Stands ⟨⟨⟨true, some user.jstring, some before.length,
        before ++ [⟨parseString user.jstring, false, true⟩], usersData⟩, progress⟩,
          ports ++ [port]⟩ (some (user, port))
  | off {threads : List ServerThread} {ports : List Nat} {progress : Progress}
      (usersData : JString → Option UsersData) (hquiet : Quiet threads)
      (hlen : threads.length = ports.length) (halive : ∀ e, progress ≠ .finished e) :
      Stands ⟨⟨⟨false, none, none, threads, usersData⟩, progress⟩, ports⟩ none
  | ended {fields : ClientFields} {ports : List Nat} {e : Option Uncaught}
      (hquiet : Quiet fields.threads) (hlen : fields.threads.length = ports.length) :
      Stands ⟨⟨fields, .finished e⟩, ports⟩ none

/-- Threads that do not run listen nowhere. -/
theorem filter_zip_quiet {threads : List ServerThread} (h : Quiet threads) (ports : List Nat) :
    (threads.zip ports).filter (fun x => x.1.running) = [] := by
  rw [List.filter_eq_nil_iff]
  intro x hx
  rw [h x.1 (List.of_mem_zip hx).1]
  exact Bool.false_ne_true

namespace Stands

variable {k : ClientProcess} {o : Option (UserName × Nat)}

/-- A process listens at the port of its entry, if it has one. -/
theorem listening_eq (h : k.Stands o) : k.listening = (o.map Prod.snd).toList := by
  unfold listening
  cases h with
  | on user port usersData hquiet hlen halive =>
    rw [List.zip_append hlen, List.filter_append, filter_zip_quiet hquiet]
    rfl
  | off usersData hquiet hlen halive => rw [filter_zip_quiet hquiet]; rfl
  | ended hquiet hlen => rw [filter_zip_quiet hquiet]; rfl

/-- A process is connected under the name of its entry. -/
theorem on_iff (h : k.Stands o) (user : JString) :
    k.On user ↔ ∃ name port, o = some (name, port) ∧ user = name.jstring := by
  constructor
  · rintro ⟨halive, hconnected, hnamed⟩
    cases h with
    | on name port usersData hquiet hlen _ => exact ⟨name, port, rfl, (Option.some.inj hnamed).symm⟩
    | off usersData hquiet hlen _ => cases hconnected
    | ended hquiet hlen => exact absurd rfl (halive _)
  · rintro ⟨name, port, rfl, rfl⟩
    cases h with
    | on _ _ usersData hquiet hlen halive => exact ⟨halive, rfl, rfl⟩

/-- The table and the progress do not matter while the client lives. -/
theorem same {fields : ClientFields} {progress : Progress} (h : k.Stands o)
    (halive : ∀ e, k.shell.progress ≠ .finished e) (hsame : SameBut k.shell.fields fields)
    (halive' : ∀ e, progress ≠ .finished e) : Stands ⟨⟨fields, progress⟩, k.ports⟩ o := by
  obtain ⟨usersData, rfl⟩ := hsame
  cases h with
  | on user port _ hquiet hlen _ => exact .on user port usersData hquiet hlen halive'
  | off _ hquiet hlen _ => exact .off usersData hquiet hlen halive'
  | ended hquiet hlen => exact absurd rfl (halive _)

end Stands

end ClientProcess

/-! ## One turn -/

namespace P2pService

open ClientFields (Quiet SameBut)

variable {n : Nat} {host : Fin n → InAddr} {owner : Bytes → Fin n}
  {toUpperCase : JString → JString} {w w' : P2pService n} {e : ServiceEvent n}
  {o o' : Option (UserName × Nat)}

/-- What a turn does to the entry of its client and to the list of the server. -/
inductive Moves (host : Fin n → InAddr) (owner : Bytes → Fin n) (w : P2pService n) (i : Fin n) :
    Option (UserName × Nat) → Option (UserName × Nat) → List UserServerData → Prop
  | stays (o : Option (UserName × Nat)) : Moves host owner w i o o w.store.connected
  | joins (user : UserName) (port : Nat) (hown : owner (serverName user.jstring) = i)
      (hport : port ≤ 0xFFFF) (hfree : ∀ j, host j = host i → port ∉ (w.clients j).listening)
      (hnew : serverName user.jstring ∉ userNames w.store.connected) :
      Moves host owner w i none (some (user, port))
        (addElement (listenerAt (host i) user.jstring port) w.store.connected)
  | leaves (user : UserName) (port : Nat) :
      Moves host owner w i (some (user, port)) none
        (deleteElement (serverName user.jstring) w.store.connected)

/-- The process and the list after a command. -/
structure Done (host : Fin n → InAddr) (owner : Bytes → Fin n) (w : P2pService n) (i : Fin n)
    (o : Option (UserName × Nat)) (fields : ClientFields) (ports : List Nat)
    (list : List UserServerData) (o' : Option (UserName × Nat)) : Prop where
  moves : Moves host owner w i o o' list
  stands : ∀ progress : Progress, (∀ e, progress ≠ .finished e) →
    ClientProcess.Stands ⟨⟨fields, progress⟩, ports⟩ o'

section Command

variable {i : Fin n} {k : ClientProcess} {meets : Surroundings n}

/-- A command that leaves the connection alone, and the list. -/
theorem done_same (h : k.Stands o) (halive : ∀ e, k.shell.progress ≠ .finished e)
    {fields : ClientFields} {list : List UserServerData} (hsame : SameBut k.shell.fields fields)
    (hlist : list = w.store.connected) : Done host owner w i o fields (k.ports ++ []) list o := by
  refine ⟨hlist ▸ .stays o, fun progress hp => ?_⟩
  rw [List.append_nil]
  exact h.same halive hsame hp

theorem handled_none (s : Store) (server : Option Conditions) : handled s server none = s := by
  unfold handled
  cases server <;> rfl

theorem server_network (meets : Surroundings n) :
    (w.network host meets).server = meets.server.map (·.answers w.store) := rfl

/-- The reply to a request of which the status is known. -/
theorem readInt_answers {x : Conditions} {bytes : Bytes} {status : Int} {s s' : Store}
    (h : x.exchange bytes s = (some status, s')) :
    (readInt (x.answers s bytes).bytes).map Prod.fst = some status :=
  congrArg Prod.fst h

/-- A CONNECT that reaches the server: it joins, or the thread is closed again. -/
theorem done_reached {threads : List ServerThread} {ports : List Nat}
    {usersData : JString → Option UsersData} (hquiet : Quiet threads)
    (hlen : threads.length = ports.length) {name : UserName} {port : Nat} {x : Conditions}
    (hown : owner (serverName name.jstring) = i) (hport : port ≤ 0xFFFF)
    (hfree : ∀ j, host j = host i → port ∉ (w.clients j).listening)
    (haddress : ∀ a, x.address = some a → a = inetNtoa (host i)) :
    let request := ClientFields.connectRequest name.jstring port
    let c : ClientFields := ⟨false, none, none, threads, usersData⟩
    ∃ o', Done host owner w i none
      ((c.startThread (parseString name.jstring)).connectAnswered name.jstring
        (readInt (x.answers w.store request).bytes))
      (ports ++ [port]) (x.exchange request w.store).2.connected o' := by
  intro request c
  have hexchange := exchange_connectRequest x w.store name hport
  obtain ⟨⟨status, rest⟩, hr, hstatus⟩ := Option.map_eq_some_iff.1 (readInt_answers hexchange)
  dsimp only at hstatus
  have hanswered : (c.startThread (parseString name.jstring)).connectAnswered name.jstring
      (some (status, rest)) = _ := ClientFields.connectAnswered_eq _ _ _
  have hlength : (threads ++ [(⟨parseString name.jstring, true, false⟩ : ServerThread)]).length =
      (ports ++ [port]).length := by
    rw [List.length_append, List.length_append, hlen]
    rfl
  rw [hr, hanswered, hexchange]
  dsimp only
  rcases connectUser.act_cases x.calls w.store x.address (serverName name.jstring)
      (portText port) with ⟨a, -, hnew, ha, heq⟩ | ⟨-, hne, heq⟩
  · obtain rfl := haddress a ha
    rw [heq] at hstatus ⊢
    rw [if_pos hstatus]
    exact ⟨some (name, port), .joins name port hown hport hfree hnew,
      fun _ hp => .on name port usersData hquiet hlen hp⟩
  · have hrefusal := connectUser.act_refused x.calls w.store hne
    rw [← hstatus] at hne hrefusal
    rw [heq, if_neg hne, if_pos hrefusal]
    exact ⟨none, .stays none, fun _ hp =>
      .off usersData (ClientFields.quiet_snoc.2 ⟨hquiet, rfl⟩) hlength hp⟩

/-- CONNECT: a client that is connected stays so, and another one joins if the server agrees. -/
theorem done_connect {user : JString} (h : (w.clients e.client).Stands o)
    (halive : ∀ p, (w.clients e.client).shell.progress ≠ .finished p)
    (hwell : (w.clients e.client).shell.fields.connected = false →
      w.ConnectsWell host owner e user) :
    let c := (w.clients e.client).shell.fields
    ∃ o', Done host owner w e.client o (c.connect (w.network host e.meets) user).2
      ((w.clients e.client).ports ++
        (c.opened (w.network host e.meets) (.connect user)).toList)
      (handled w.store e.meets.server
        (c.sent (w.network host e.meets) (.connect user))).connected o' := by
  generalize hk : w.clients e.client = k at h halive hwell
  intro c
  subst c
  cases h with
  | ended hquiet hlen => exact absurd rfl (halive _)
  | @on before ports progress name port usersData hquiet hlen _ =>
    exact ⟨_, done_same (.on name port usersData hquiet hlen halive) halive (.refl _)
      (congrArg Store.connected (handled_none w.store e.meets.server))⟩
  | @off threads ports progress usersData hquiet hlen _ =>
    obtain ⟨⟨name, rfl, hown⟩, haddress, hsilent, hfree⟩ := hwell rfl
    have hrefused : ∀ list : List UserServerData, list = w.store.connected →
        Done host owner w e.client none ⟨false, none, none, threads, usersData⟩ (ports ++ [])
          list none :=
      fun list => done_same (.off usersData hquiet hlen halive) halive (.refl _)
    cases hserver : e.meets.server with
    | none =>
      have hnone : (w.network host e.meets).server = none := by rw [server_network, hserver]; rfl
      rw [ClientFields.connect_refused rfl (Or.inl hnone)]
      refine ⟨none, ?_⟩
      unfold ClientFields.opened
      rw [hnone]
      exact hrefused _ rfl
    | some x =>
      have hsome : (w.network host e.meets).server = some (x.answers w.store) := by
        rw [server_network, hserver]
        rfl
      cases hport : e.meets.localPort with
      | none =>
        have hnone : (w.network host e.meets).localPort = none := hport
        rw [ClientFields.connect_refused rfl (Or.inr hnone)]
        refine ⟨none, ?_⟩
        unfold ClientFields.opened ClientFields.sent
        rw [hsome, hnone]
        exact hrefused _ (congrArg Store.connected (exchange_other (hsilent x hserver hport)))
      | some port =>
        obtain ⟨hle, hfree⟩ := hfree port hport
        have hlocal : (w.network host e.meets).localPort = some port := hport
        rw [ClientFields.connect_eq rfl hsome hlocal]
        unfold ClientFields.opened ClientFields.sent
        rw [hsome, hlocal]
        exact done_reached hquiet hlen hown hle hfree (haddress x · hserver)

/-- What a DISCONNECT does at a server that finds the user registered and connected. -/
theorem connected_disconnect {x : Conditions} {user : JString}
    (hregistered : isusrRegistered x.calls w.store.tree (serverName user) = 1)
    (hrecorded : serverName user ∈ userNames w.store.connected) :
    (x.exchange (parseCommand .disconnect ++ parseString user) w.store).2.connected =
      deleteElement (serverName user) w.store.connected := by
  rw [exchange_disconnect]
  rcases disconnectUser.act_cases x.calls w.store (serverName user) with
    ⟨-, -, heq⟩ | ⟨hreg | hnot, -, -⟩
  · rw [heq]
  · exact absurd hregistered hreg
  · exact absurd hrecorded hnot

/-- A thread that has been closed is one more that does not run. -/
theorem stands_closed {before : List ServerThread} {ports : List Nat} {t : ServerThread}
    (hquiet : Quiet before) (hlen : before.length = ports.length) (ht : t.running = false)
    (port : Nat) :
    Quiet (before ++ [t]) ∧ (before ++ [t]).length = (ports ++ [port]).length := by
  refine ⟨ClientFields.quiet_snoc.2 ⟨hquiet, ht⟩, ?_⟩
  rw [List.length_append, List.length_append, hlen]
  rfl

/-- DISCONNECT: a client that is connected under the name leaves. -/
theorem done_disconnect {user : JString} (h : (w.clients e.client).Stands o)
    (halive : ∀ p, (w.clients e.client).shell.progress ≠ .finished p)
    (hanswered : (w.clients e.client).shell.fields.connected = true →
      (w.clients e.client).shell.fields.connectedUserName = some user → w.Answered e user)
    (hrecorded : ∀ name port, o = some (name, port) →
      serverName name.jstring ∈ userNames w.store.connected) :
    let c := (w.clients e.client).shell.fields
    ∃ o', Done host owner w e.client o (c.disconnect (w.network host e.meets) user).2
      ((w.clients e.client).ports ++ [])
      (handled w.store e.meets.server
        (c.sent (w.network host e.meets) (.disconnect user))).connected o' := by
  generalize hk : w.clients e.client = k at h halive hanswered
  intro c
  subst c
  have hnone := congrArg Store.connected (handled_none w.store e.meets.server)
  cases h with
  | ended hquiet hlen => exact absurd rfl (halive _)
  | @off threads ports progress usersData hquiet hlen _ =>
    exact ⟨none, done_same (.off usersData hquiet hlen halive) halive (.refl _) hnone⟩
  | @on before ports progress name port usersData hquiet hlen _ =>
    by_cases huser : some name.jstring = some user
    · obtain rfl := Option.some.inj huser
      obtain ⟨x, hserver, hregistered⟩ := hanswered rfl rfl
      have hlist := connected_disconnect hregistered (hrecorded name port rfl)
      obtain ⟨hquiet', hlen'⟩ := stands_closed (t := ServerThread.closeConnection
        ⟨parseString name.jstring, false, true⟩) hquiet hlen rfl port
      have hfields : ClientFields.disconnectFinally ⟨true, some name.jstring,
          some before.length, before ++ [⟨parseString name.jstring, false, true⟩], usersData⟩ =
          (none, ⟨false, none, none, before ++ [ServerThread.closeConnection
            ⟨parseString name.jstring, false, true⟩], usersData⟩) := by
        unfold ClientFields.disconnectFinally
        dsimp only
        rw [ClientFields.closeThread_last]
      have hsent : ClientFields.sent (w.network host e.meets) ⟨true, some name.jstring,
          some before.length, before ++ [⟨parseString name.jstring, false, true⟩], usersData⟩
          (.disconnect name.jstring) =
            some (parseCommand .disconnect ++ parseString name.jstring) := by
        unfold ClientFields.sent
        dsimp only
        rw [if_neg (by simp), if_neg (by simp)]
        exact request_one .disconnect name.jstring
      rw [ClientFields.disconnect_eq rfl rfl, hfields, hsent, hserver, List.append_nil]
      refine ⟨none, ?_, fun _ hp => .off usersData hquiet' hlen' hp⟩
      change Moves host owner w e.client _ none
        (x.exchange (parseCommand .disconnect ++ parseString name.jstring) w.store).2.connected
      rw [hlist]
      exact .leaves name port
    · have hfields : ClientFields.disconnect (w.network host e.meets) ⟨true, some name.jstring,
          some before.length, before ++ [⟨parseString name.jstring, false, true⟩], usersData⟩
          user = (none, ⟨true, some name.jstring, some before.length,
            before ++ [⟨parseString name.jstring, false, true⟩], usersData⟩) := by
        unfold ClientFields.disconnect
        rw [if_neg (by simp), if_pos huser]
      have hsent : ClientFields.sent (w.network host e.meets) ⟨true, some name.jstring,
          some before.length, before ++ [⟨parseString name.jstring, false, true⟩], usersData⟩
          (.disconnect user) = none := by
        unfold ClientFields.sent
        dsimp only
        rw [if_neg (by simp), if_pos huser]
      rw [hfields, hsent]
      exact ⟨_, done_same (.on name port usersData hquiet hlen halive) halive (.refl _) hnone⟩

/-- UNREGISTER of a user who is not connected. -/
theorem connected_unregister {x : Conditions} {user : JString}
    (h : serverName user ∉ userNames w.store.connected) :
    (x.exchange (parseCommand .unregister ++ parseString user) w.store).2.connected =
      w.store.connected := by
  rw [exchange_unregister]
  rcases unregisterUser.act_cases x.calls w.store (serverName user) with
    ⟨-, -, heq⟩ | ⟨-, -, heq⟩ | ⟨-, -, heq⟩
  · rw [heq]
    exact deleteElement_of_notMem h
  · rw [heq]
  · rw [heq]

/-- The other commands leave the entry and the list. -/
theorem done_other {command : Command} (h : (w.clients e.client).Stands o)
    (halive : ∀ p, (w.clients e.client).shell.progress ≠ .finished p)
    (hconnect : ∀ user, command ≠ .connect user)
    (hdisconnect : ∀ user, command ≠ .disconnect user)
    (hunregister : ∀ user, command = .unregister user → e.meets.server.isSome →
      serverName user ∉ userNames w.store.connected) :
    let c := (w.clients e.client).shell.fields
    Done host owner w e.client o (c.perform (w.network host e.meets) command).2
      ((w.clients e.client).ports ++ [])
      (handled w.store e.meets.server
        (c.sent (w.network host e.meets) command)).connected o := by
  intro c
  have hsame : SameBut c (c.perform (w.network host e.meets) command).2 := by
    rcases ClientFields.perform_cases (w.network host e.meets) c command with
      ⟨user, heq⟩ | ⟨user, heq⟩ | hsame
    · exact absurd heq (hconnect user)
    · exact absurd heq (hdisconnect user)
    · exact hsame
  refine done_same h halive hsame ?_
  cases hserver : e.meets.server with
  | none => rfl
  | some x =>
    cases hsent : c.sent (w.network host e.meets) command with
    | none => rfl
    | some bytes =>
      by_cases hname : ∃ user, command = .unregister user
      · obtain ⟨user, rfl⟩ := hname
        obtain rfl := Option.some.inj ((request_one .unregister user).symm.trans hsent)
        exact connected_unregister (hunregister user rfl (by rw [hserver]; rfl))
      · exact keeps_of_sent x w.store hsent hconnect hdisconnect fun user heq => hname ⟨user, heq⟩

/-- The end of `main`: a client that is connected leaves. -/
theorem done_finish (h : (w.clients e.client).Stands o)
    (halive : ∀ p, (w.clients e.client).shell.progress ≠ .finished p)
    (hanswered : ∀ user, (w.clients e.client).shell.fields.connected = true →
      (w.clients e.client).shell.fields.connectedUserName = some user → w.Answered e user)
    (hrecorded : ∀ name port, o = some (name, port) →
      serverName name.jstring ∈ userNames w.store.connected) :
    let shell := (w.clients e.client).shell
    let turn := Turn.finish (w.network host e.meets)
    ∃ o', Moves host owner w e.client o o'
        (handled w.store e.meets.server (shell.sent toUpperCase turn)).connected ∧
      ClientProcess.Stands ⟨shell.next toUpperCase turn, (w.clients e.client).ports ++ []⟩ o' := by
  generalize hk : w.clients e.client = k at h halive hanswered
  intro shell turn
  subst shell turn
  rw [List.append_nil]
  cases h with
  | ended hquiet hlen => exact absurd rfl (halive _)
  | @off threads ports progress usersData hquiet hlen _ =>
    refine ⟨none, ?_, .ended hquiet hlen⟩
    have hnone := congrArg Store.connected (handled_none w.store e.meets.server)
    exact hnone ▸ .stays none
  | @on before ports progress name port usersData hquiet hlen _ =>
    obtain ⟨x, hserver, hregistered⟩ := hanswered name.jstring rfl rfl
    have hlist := connected_disconnect hregistered (hrecorded name port rfl)
    have hlast : (before ++ [(⟨parseString name.jstring, false, true⟩ : ServerThread)])[
        before.length]? = some ⟨parseString name.jstring, false, true⟩ :=
      List.getElem?_concat_length
    have hsent : Shell.sent toUpperCase ⟨⟨true, some name.jstring, some before.length,
        before ++ [⟨parseString name.jstring, false, true⟩], usersData⟩, progress⟩
        (.finish (w.network host e.meets)) =
          some (parseCommand .disconnect ++ parseString name.jstring) := by
      unfold Shell.sent
      dsimp only
      rw [if_pos rfl, Option.bind_some, hlast]
      rfl
    have hclosed : (ServerThread.closeConnectionQuit (w.network host e.meets)
        ⟨parseString name.jstring, false, true⟩).running = false := by
      rw [ClientFields.closeConnectionQuit_running]
      refine ⟨x.answers w.store, by rw [server_network, hserver]; rfl, ?_⟩
      have hread := congrArg Prod.fst (exchange_disconnect x name.jstring w.store)
      rw [← Option.isSome_map (f := Prod.fst)]
      exact Option.isSome_of_eq_some hread
    obtain ⟨hquiet', hlen'⟩ := stands_closed hquiet hlen hclosed port
    rw [hsent, hserver]
    refine ⟨none, ?_, ?_⟩
    · change Moves host owner w e.client _ none
        (x.exchange (parseCommand .disconnect ++ parseString name.jstring) w.store).2.connected
      rw [hlist]
      exact .leaves name port
    · have hthreads : (ClientFields.quit (w.network host e.meets) ⟨true, some name.jstring,
          some before.length, before ++ [⟨parseString name.jstring, false, true⟩],
          usersData⟩).2.threads = before ++ [ServerThread.closeConnectionQuit
            (w.network host e.meets) ⟨parseString name.jstring, false, true⟩] :=
        ClientFields.modify_last _ before _
      rw [← hthreads] at hquiet' hlen'
      exact .ended hquiet' hlen'

end Command

/-- **One turn** of a client moves its entry, the list along with it, and no other client. -/
theorem step_cases (h : (w.clients e.client).Stands o)
    (ho : w.Orderly host owner toUpperCase e) (hs : w.Step host toUpperCase e w')
    (hrecorded : ∀ name port, o = some (name, port) →
      serverName name.jstring ∈ userNames w.store.connected) :
    ∃ o', Moves host owner w e.client o o' w'.store.connected ∧
      (w'.clients e.client).Stands o' ∧ ∀ j, j ≠ e.client → w'.clients j = w.clients j := by
  obtain ⟨⟨hprogress, -⟩, rfl⟩ := hs
  suffices hmoves : ∃ o', Moves host owner w e.client o o'
      (w.next host toUpperCase e).store.connected ∧
        ((w.next host toUpperCase e).clients e.client).Stands o' by
    obtain ⟨o', hmove, hstands⟩ := hmoves
    exact ⟨o', hmove, hstands, fun j hj => Function.update_of_ne hj _ _⟩
  unfold next
  dsimp only
  rw [Function.update_self]
  obtain ⟨i, doing, meets⟩ := e
  cases doing with
  | finish =>
    have hreturned : (w.clients i).shell.progress = .returned := hprogress
    have halive : ∀ p, (w.clients i).shell.progress ≠ .finished p := by
      rw [hreturned]
      nofun
    exact @done_finish n host owner toUpperCase w ⟨i, .finish, meets⟩ o h halive ho hrecorded
  | line input =>
    have hprompt : (w.clients i).shell.progress = .prompt := hprogress
    have halive : ∀ p, (w.clients i).shell.progress ≠ .finished p := by
      rw [hprompt]
      nofun
    have hdone : ∀ {fields : ClientFields} {ports : List Nat} {list : List UserServerData}
        {o' : Option (UserName × Nat)}, Done host owner w i o fields ports list o' →
        ∀ progress, (∀ p, progress ≠ .finished p) → ∃ o', Moves host owner w i o o' list ∧
          ClientProcess.Stands ⟨⟨fields, progress⟩, ports⟩ o' :=
      fun hd progress hp => ⟨_, hd.moves, hd.stands progress hp⟩
    have hunchanged : Done host owner w i o (w.clients i).shell.fields
        ((w.clients i).ports ++ []) (handled w.store meets.server none).connected o :=
      done_same h halive (.refl _) (congrArg Store.connected (handled_none _ _))
    cases input with
    | none => exact hdone hunchanged (.threw .nullPointer) (by nofun)
    | some input =>
      unfold Orderly at ho
      unfold turn Shell.next Shell.sent Shell.opened
      dsimp only at ho ⊢
      cases hinterpret : interpret toUpperCase input with
      | error error => exact hdone hunchanged (.threw error) (by nofun)
      | ok command =>
        rw [hinterpret] at ho
        have halive' := Shell.progressAfter_ne_finished command
          ((w.clients i).shell.fields.perform (w.network host meets) command).1
        dsimp only
        by_cases hconnect : ∃ user, command = .connect user
        · obtain ⟨user, rfl⟩ := hconnect
          obtain ⟨o', hd⟩ := @done_connect n host owner w ⟨i, .line (some input), meets⟩ o user h
            halive ho
          exact hdone hd _ halive'
        by_cases hdisconnect : ∃ user, command = .disconnect user
        · obtain ⟨user, rfl⟩ := hdisconnect
          obtain ⟨o', hd⟩ := @done_disconnect n host owner w ⟨i, .line (some input), meets⟩ o user
            h halive ho hrecorded
          exact hdone hd _ halive'
        have hopened : (w.clients i).shell.fields.opened (w.network host meets) command = none := by
          cases command with
          | connect user => exact absurd ⟨user, rfl⟩ hconnect
          | _ => rfl
        rw [hopened]
        refine hdone (@done_other n host owner w ⟨i, .line (some input), meets⟩ o command h halive
          ?_ ?_ ?_) _ halive'
        · exact fun user heq => hconnect ⟨user, heq⟩
        · exact fun user heq => hdisconnect ⟨user, heq⟩
        · rintro user rfl
          exact ho

/-! ## Runs -/

/-- The entries of the directory: the connected clients, with their names and ports. -/
abbrev Directory (n : Nat) := Fin n → Option (UserName × Nat)

theorem update_eq_some_iff {f : Directory n} {i j : Fin n} {x : UserName × Nat} :
    Function.update f i o j = some x ↔ (j = i ∧ o = some x) ∨ (j ≠ i ∧ f j = some x) := by
  by_cases hj : j = i
  · subst hj
    simp
  · simp [hj]

/-- The clients and the server stand as the directory says. -/
structure Consistent (host : Fin n → InAddr) (owner : Bytes → Fin n) (w : P2pService n)
    (f : Directory n) : Prop where
  stands : ∀ i, (w.clients i).Stands (f i)
  records : ∀ d, d ∈ w.store.connected ↔ ∃ i user port, f i = some (user, port) ∧
    d = listenerAt (host i) user.jstring port
  nodup : (userNames w.store.connected).Nodup
  owned : ∀ i user port, f i = some (user, port) → owner (serverName user.jstring) = i
  inRange : ∀ i user port, f i = some (user, port) → port ≤ 0xFFFF
  apart : ∀ i j user user' port, f i = some (user, port) → f j = some (user', port) →
    host i = host j → i = j

namespace Consistent

variable {f : Directory n} {i : Fin n}

/-- At the start the directory is empty. -/
theorem start (c : SysCalls) (t : Tree) :
    Consistent host owner (.start c t) fun _ => none where
  stands _ := .off _ (by nofun) rfl (by nofun)
  records d := iff_of_false List.not_mem_nil (by simp)
  nodup := List.nodup_nil
  owned := by nofun
  inRange := by nofun
  apart := by nofun

/-- Who is in the directory is in the server's list. -/
theorem recorded (h : Consistent host owner w f) {user : UserName} {port : Nat}
    (hi : f i = some (user, port)) : serverName user.jstring ∈ userNames w.store.connected :=
  List.mem_map.2 ⟨_, (h.records _).2 ⟨i, user, port, hi, rfl⟩, rfl⟩

/-- A client listens at the ports of its entry. -/
theorem mem_listening_iff (h : Consistent host owner w f) {port : Nat} :
    port ∈ (w.clients i).listening ↔ ∃ user, f i = some (user, port) := by
  rw [(h.stands i).listening_eq]
  cases hi : f i with
  | none => simp
  | some x =>
    obtain ⟨user, port'⟩ := x
    simp [eq_comm]

/-- What a move does to the list it does to the directory. -/
theorem moves (h : Consistent host owner w f)
    (hmoves : Moves host owner w i (f i) o' w'.store.connected)
    (hstands : (w'.clients i).Stands o') (hothers : ∀ j, j ≠ i → w'.clients j = w.clients j) :
    Consistent host owner w' (Function.update f i o') := by
  have hall : ∀ j, (w'.clients j).Stands (Function.update f i o' j) := by
    intro j
    by_cases hj : j = i
    · subst hj
      rw [Function.update_self]
      exact hstands
    · rw [Function.update_of_ne hj, hothers j hj]
      exact h.stands j
  generalize hlist : w'.store.connected = list at hmoves
  generalize hi : f i = o at hmoves
  cases hmoves with
  | stays =>
    have hsame : Function.update f i (f i) = f := Function.update_eq_self i f
    rw [hi] at hsame
    rw [hsame] at hall ⊢
    exact ⟨hall, hlist ▸ h.records, hlist ▸ h.nodup, h.owned, h.inRange, h.apart⟩
  | joins user port hown hport hfree hnew =>
    refine ⟨hall, fun d => ?_, hlist ▸ nodup_addElement h.nodup hnew, ?_, ?_, ?_⟩
    · rw [hlist]
      unfold addElement
      rw [List.mem_append, List.mem_singleton, h.records]
      constructor
      · rintro (⟨j, user', port', hj, rfl⟩ | rfl)
        · have hne : j ≠ i := by
            rintro rfl
            rw [hi] at hj
            cases hj
          exact ⟨j, user', port', update_eq_some_iff.2 (Or.inr ⟨hne, hj⟩), rfl⟩
        · exact ⟨i, user, port, update_eq_some_iff.2 (Or.inl ⟨rfl, rfl⟩), rfl⟩
      · rintro ⟨j, user', port', hj, rfl⟩
        rcases update_eq_some_iff.1 hj with ⟨rfl, hx⟩ | ⟨-, hj⟩
        · obtain ⟨rfl, rfl⟩ := Prod.mk.inj (Option.some.inj hx)
          exact Or.inr rfl
        · exact Or.inl ⟨j, user', port', hj, rfl⟩
    · intro j user' port' hj
      rcases update_eq_some_iff.1 hj with ⟨rfl, hx⟩ | ⟨-, hj⟩
      · obtain ⟨rfl, rfl⟩ := Prod.mk.inj (Option.some.inj hx)
        exact hown
      · exact h.owned j user' port' hj
    · intro j user' port' hj
      rcases update_eq_some_iff.1 hj with ⟨rfl, hx⟩ | ⟨-, hj⟩
      · obtain ⟨rfl, rfl⟩ := Prod.mk.inj (Option.some.inj hx)
        exact hport
      · exact h.inRange j user' port' hj
    · intro j j' user' user'' port' hj hj' hhost
      have hclash : ∀ {j : Fin n} {user' : UserName}, f j = some (user', port) →
          host j ≠ host i :=
        fun hj hhost => hfree _ hhost (h.mem_listening_iff.2 ⟨_, hj⟩)
      rcases update_eq_some_iff.1 hj with ⟨rfl, hx⟩ | ⟨-, hold⟩
      · obtain ⟨rfl, rfl⟩ := Prod.mk.inj (Option.some.inj hx)
        rcases update_eq_some_iff.1 hj' with ⟨rfl, -⟩ | ⟨-, hold'⟩
        · rfl
        · exact absurd hhost.symm (hclash hold')
      · rcases update_eq_some_iff.1 hj' with ⟨rfl, hx⟩ | ⟨-, hold'⟩
        · obtain ⟨rfl, rfl⟩ := Prod.mk.inj (Option.some.inj hx)
          exact absurd hhost (hclash hold)
        · exact h.apart j j' user' user'' port' hold hold' hhost
  | leaves user port =>
    have hkept : ∀ {j : Fin n} {x : UserName × Nat}, Function.update f i none j = some x →
        j ≠ i ∧ f j = some x := by
      intro j x hj
      rcases update_eq_some_iff.1 hj with ⟨-, hx⟩ | hj
      · cases hx
      · exact hj
    refine ⟨hall, fun d => ?_, hlist ▸ nodup_deleteElement h.nodup _, ?_, ?_, ?_⟩
    · rw [hlist, deleteElement_of_nodup h.nodup, List.mem_filter, h.records, decide_eq_true_eq]
      constructor
      · rintro ⟨⟨j, user', port', hj, rfl⟩, hname⟩
        refine ⟨j, user', port', update_eq_some_iff.2 (Or.inr ⟨?_, hj⟩), rfl⟩
        rintro rfl
        rw [hi] at hj
        obtain ⟨rfl, rfl⟩ := Prod.mk.inj (Option.some.inj hj)
        exact hname rfl
      · rintro ⟨j, user', port', hj, rfl⟩
        obtain ⟨hne, hj⟩ := hkept hj
        refine ⟨⟨j, user', port', hj, rfl⟩, fun hname => hne ?_⟩
        have hname : serverName user'.jstring = serverName user.jstring := hname
        rw [← h.owned j user' port' hj, hname, h.owned i user port hi]
    · exact fun j user' port' hj => h.owned j user' port' (hkept hj).2
    · exact fun j user' port' hj => h.inRange j user' port' (hkept hj).2
    · exact fun j j' user' user'' port' hj hj' =>
        h.apart j j' user' user'' port' (hkept hj).2 (hkept hj').2

/-- An orderly turn changes the entry of its client alone, and the list of the server with it. -/
theorem step (h : Consistent host owner w f) (ho : w.Orderly host owner toUpperCase e)
    (hs : w.Step host toUpperCase e w') :
    ∃ o', Moves host owner w e.client (f e.client) o' w'.store.connected ∧
      Consistent host owner w' (Function.update f e.client o') := by
  obtain ⟨o', hmoves, hstands, hothers⟩ :=
    step_cases (h.stands e.client) ho hs fun _ _ hi => h.recorded hi
  exact ⟨o', hmoves, h.moves hmoves hstands hothers⟩

/-- What a consistent directory promises of the list and the clients. -/
theorem agrees (h : Consistent host owner w f) : w.Agrees host where
  nodup := h.nodup
  records d := by
    rw [h.records]
    constructor
    · rintro ⟨i, user, port, hi, rfl⟩
      exact ⟨i, user.jstring, port, ((h.stands i).on_iff _).2 ⟨user, port, hi, rfl⟩,
        h.mem_listening_iff.2 ⟨user, hi⟩, rfl⟩
    · rintro ⟨i, user, port, hon, hport, rfl⟩
      obtain ⟨name, port', hi, rfl⟩ := ((h.stands i).on_iff _).1 hon
      obtain ⟨name', hi'⟩ := h.mem_listening_iff.1 hport
      obtain ⟨rfl, rfl⟩ := Prod.mk.inj (Option.some.inj (hi.symm.trans hi'))
      exact ⟨i, name, port', hi, rfl⟩
  listens i user hon := by
    obtain ⟨name, port, hi, rfl⟩ := ((h.stands i).on_iff _).1 hon
    refine ⟨port, ?_⟩
    rw [(h.stands i).listening_eq, hi]
    rfl
  quiet i hoff := by
    have hnone : f i = none := by
      cases hi : f i with
      | none => rfl
      | some x => exact absurd (((h.stands i).on_iff _).2 ⟨x.1, x.2, hi, rfl⟩) (hoff _)
    rw [(h.stands i).listening_eq, hnone]
    rfl

end Consistent

variable {c : SysCalls} {t : Tree} {steps : List (P2pService n × ServiceEvent n)}

/-- An entry that is there after a turn was there before, unless the turn has made it. -/
theorem Moves.entry_before {f : Directory n} {i j : Fin n} {list : List UserServerData}
    {x : UserName × Nat} (h : Moves host owner w i (f i) o' list)
    (hj : Function.update f i o' j = some x) (hi : j = i → f i ≠ none) : f j = some x := by
  rcases update_eq_some_iff.1 hj with ⟨rfl, rfl⟩ | ⟨-, hj⟩
  · generalize hf : f j = o at h
    cases h with
    | stays => rfl
    | joins => exact absurd hf (hi rfl)
  · exact hj

/-- After any run of orderly turns there is a consistent directory. -/
theorem consistent_of_run {w₀ : P2pService n} {f : Directory n}
    (h : Run (Step host toUpperCase) w₀ steps w) (h₀ : Consistent host owner w₀ f)
    (ho : Guarded (Orderly host owner toUpperCase) steps) :
    ∃ f', Consistent host owner w f' := by
  apply h.invariant_of_guard (I := fun w => ∃ f, Consistent host owner w f) ⟨f, h₀⟩ _ ho
  rintro s e s' ⟨f, hI⟩ hG hs
  obtain ⟨o', -, hI'⟩ := hI.step hG hs
  exact ⟨_, hI'⟩

/-- **The server knows exactly the clients that listen** after any run of orderly turns. -/
theorem agrees_of_run (h : Run (Step host toUpperCase) (.start c t) steps w)
    (ho : Guarded (Orderly host owner toUpperCase) steps) : w.Agrees host := by
  obtain ⟨f, hf⟩ := consistent_of_run h (.start c t) ho
  exact hf.agrees

/-! ### Two clients -/

/-- The directories of alice and bob. -/
def twoUsers : Tree :=
  let register (t : Tree) (user : Bytes) : Tree :=
    (registerUser.act (posix []) user ⟨t, []⟩).2.tree
  register (register (initP2pService (posix []) .empty).tree (cstring "alice")) (cstring "bob")

def localhost : InAddr := ⟨127, 0, 0, 1⟩

/-- The first client is alice's, and the other one has all other names. -/
def ownerOf (user : Bytes) : Fin 2 := if user = cstring "alice" then 0 else 1

/-- Everything can be reached, and everybody shares a file `f`. -/
def reachable (port : Nat) : Surroundings 2 where
  server := some ⟨posix [], true, .zeros, some (inetNtoa localhost)⟩
  localPort := some port
  toUppercase := upperCase
  files _ path :=
    if path = ManageRequest.filesPath ++ ['f'] then some (Utf8.encode ['h', 'i']) else none
  writable := true

def typing (client : Fin 2) (input : String) (port : Nat) : ServiceEvent 2 :=
  ⟨client, .line (some (jstring input)), reachable port⟩

def started : P2pService 2 := .start (posix []) twoUsers

def aliceOn : P2pService 2 :=
  started.next (fun _ => localhost) upperCase (typing 0 "CONNECT alice" 4200)

def bothOn : P2pService 2 :=
  aliceOn.next (fun _ => localhost) upperCase (typing 1 "CONNECT bob" 4201)

def bobLists : ServiceEvent 2 := typing 1 "LIST_USERS" 0

def listedUsers : P2pService 2 := bothOn.next (fun _ => localhost) upperCase bobLists

def aliceName : UserName where
  chars := "alice".toList
  plain := by simp
  short := by decide
  survives := by decide

def bobName : UserName where
  chars := "bob".toList
  plain := by simp
  short := by decide
  survives := by decide

theorem run_bothOn : Run (Step (fun _ => localhost) upperCase) started
    [(started, typing 0 "CONNECT alice" 4200), (aliceOn, typing 1 "CONNECT bob" 4201)] bothOn :=
  (Run.nil.snoc (a := typing 0 "CONNECT alice" 4200) ⟨⟨rfl, rfl⟩, rfl⟩).snoc
    (a := typing 1 "CONNECT bob" 4201)
    ⟨⟨show (aliceOn.clients 1).shell.progress = .prompt by decide, rfl⟩, rfl⟩

theorem connectsWell_of_free {w : P2pService 2} {client : Fin 2} (input : String) {port : Nat}
    {name : UserName} (hown : ownerOf (serverName name.jstring) = client)
    (hport : port ≤ 0xFFFF) (hfree : ∀ j, port ∉ (w.clients j).listening) :
    w.ConnectsWell (fun _ => localhost) ownerOf (typing client input port) name.jstring where
  own := ⟨name, rfl, hown⟩
  address x a hx ha := by
    obtain rfl := Option.some.inj hx
    exact (Option.some.inj ha).symm
  silent x _ hnone := by cases hnone
  free port' hport' := by
    obtain rfl := Option.some.inj hport'
    exact ⟨hport, fun j _ => hfree j⟩

theorem orderly_connect {w : P2pService 2} {client : Fin 2} {input : String} {port : Nat}
    {name : UserName}
    (hinput : interpret upperCase (jstring input) = .ok (.connect name.jstring))
    (hown : ownerOf (serverName name.jstring) = client)
    (hport : port ≤ 0xFFFF) (hfree : ∀ j, port ∉ (w.clients j).listening) :
    w.Orderly (fun _ => localhost) ownerOf upperCase (typing client input port) := by
  unfold Orderly typing
  dsimp only
  rw [hinput]
  exact fun _ => connectsWell_of_free input hown hport hfree

theorem orderly_alice :
    started.Orderly (fun _ => localhost) ownerOf upperCase (typing 0 "CONNECT alice" 4200) := by
  have hinput : interpret upperCase (jstring "CONNECT alice") = .ok (.connect aliceName.jstring) :=
    by decide
  have hown : ownerOf (serverName aliceName.jstring) = 0 := by decide
  have hport : 4200 ≤ 0xFFFF := by decide
  have hfree : ∀ j, 4200 ∉ (started.clients j).listening := by decide
  apply orderly_connect
  · exact hinput
  · exact hown
  · exact hport
  · exact hfree

theorem orderly_bob :
    aliceOn.Orderly (fun _ => localhost) ownerOf upperCase (typing 1 "CONNECT bob" 4201) := by
  have hinput : interpret upperCase (jstring "CONNECT bob") = .ok (.connect bobName.jstring) := by
    decide
  have hown : ownerOf (serverName bobName.jstring) = 1 := by decide
  have hport : 4201 ≤ 0xFFFF := by decide
  have hfree : ∀ j, 4201 ∉ (aliceOn.clients j).listening := by decide
  apply orderly_connect
  · exact hinput
  · exact hown
  · exact hport
  · exact hfree

theorem orderly_bothOn : Guarded (Orderly (fun _ => localhost) ownerOf upperCase)
    [(started, typing 0 "CONNECT alice" 4200), (aliceOn, typing 1 "CONNECT bob" 4201)] := by
  intro x hx
  rw [List.mem_cons, List.mem_singleton] at hx
  obtain rfl | rfl := hx
  · exact orderly_alice
  · exact orderly_bob

theorem both_agree : bothOn.Agrees fun _ => localhost := agrees_of_run run_bothOn orderly_bothOn

end P2pService

end DistributedSystems.Lab
