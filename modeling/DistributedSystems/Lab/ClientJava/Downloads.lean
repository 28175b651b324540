import DistributedSystems.Lab.ClientJava.Clients
import DistributedSystems.Lab.ClientJava.UserTable
import Mathlib.Data.Fintype.Card

/-!
# Downloads (`list_users`, `get_file` of `clientjava/client.java`, `clientjava/ManageRequest.java`)

From the listing to the file: a client that has listed the users has the address and the port of
every connected one in its table, and they stay right for as long as that user stays connected,
whatever the clients do in the meantime. A GET_FILE then reaches that user's client and no other,
and brings the text of the file that it shares (`getFile_listed`).
-/

namespace DistributedSystems.Lab

open Fs Support CommandLine

/-! ## The fields of a record -/

theorem decimal_digits (n : UInt8) : ∀ b ∈ decimal n, 48 ≤ b.toNat ∧ b.toNat ≤ 57 := by
  -- over the bytes of the text and not over all bytes that could be in it
  have hall : (decimal n).all (fun b => decide (48 ≤ b.toNat ∧ b.toNat ≤ 57)) = true :=
    forall_uint8 (P := fun n => (decimal n).all _ = true) (by decide +kernel) n
  intro b hb
  exact of_decide_eq_true (List.all_eq_true.1 hall b hb)

theorem inetNtoa_bytes (host : InAddr) : ∀ b ∈ inetNtoa host, 46 ≤ b.toNat ∧ b.toNat ≤ 57 := by
  have hdecimal : ∀ n, ∀ b ∈ decimal n, 46 ≤ b.toNat ∧ b.toNat ≤ 57 := by
    intro n b hb
    have hbounds := decimal_digits n b hb
    omega
  have hperiod : 46 ≤ period.toNat ∧ period.toNat ≤ 57 := by decide
  intro b hb
  unfold inetNtoa at hb
  simp only [List.mem_append, List.mem_cons] at hb
  rcases hb with hb | rfl | hb | rfl | hb | rfl | hb
  · exact hdecimal _ b hb
  · exact hperiod
  · exact hdecimal _ b hb
  · exact hperiod
  · exact hdecimal _ b hb
  · exact hperiod
  · exact hdecimal _ b hb

theorem encode_decode_inetNtoa (host : InAddr) :
    Utf8.encode (Utf8.decode (inetNtoa host)) = inetNtoa host := by
  apply Utf8.encode_decode_ascii
  intro b hb
  have hbounds := inetNtoa_bytes host b hb
  omega

/-- The record of a client keeps on its way to another one. -/
theorem listenerAt_arrives (host : InAddr) (user : UserName) (port : Nat) :
    (listenerAt host user.jstring port).Plain ∧ (listenerAt host user.jstring port).Survives := by
  unfold listenerAt
  rw [user.serverName_jstring]
  have haddress := inetNtoa_bytes host
  have hport := portText_bytes port
  exact ⟨⟨user.plain_utf8, plain_of_bounds haddress, plain_of_bounds hport⟩,
    user.survives, survives_of_bounds haddress, survives_of_bounds hport⟩

/-! ## The reply to a listing -/

/-- The client reads the records of the server. -/
theorem listUsers_records {s : Store} (h : ∀ d ∈ s.connected, d.Plain ∧ d.Survives)
    (hlt : s.connected.length < 2 ^ 31) :
    Client.listUsers (listUsers.act true s) =
      .ok (s.connected.map UserServerData.decoded) [] := by
  have hint : (asInt s.connected.length).toNat = s.connected.length := by
    rw [asInt_eq (by omega), Int.toNat_natCast]
  have hall : ∀ d ∈ s.connected, Unsplit d ∧ arrived d = d.decoded := by
    intro d hd
    exact survives_iff_arrived.1 (h d hd).2
  have harrived : s.connected.map arrived = s.connected.map UserServerData.decoded :=
    List.map_congr_left fun d hd => (hall d hd).2
  rw [listUsers_act, hint, readUsers_unsplit (fun d hd => (h d hd).1) fun d hd => (hall d hd).1,
    harrived]

/-- The entry of a user whose name is put once. -/
theorem putUsers_of_mem (table : JString → Option UsersData) {users : List ListedUser}
    {user : ListedUser} (hnodup : (namesOf users).Nodup) (hmem : user ∈ users) :
    putUsers table users (Utf16.encode user.name) = some ⟨user.ip, user.port⟩ := by
  induction users generalizing table with
  | nil => cases hmem
  | cons first users ih =>
    obtain ⟨hnew, hnodup⟩ := List.nodup_cons.1 hnodup
    rcases List.mem_cons.1 hmem with rfl | hmem
    · have hkept : ∀ {table : JString → Option UsersData} {users : List ListedUser} {name},
          name ∉ namesOf users → putUsers table users name = table name := by
        intro table users name
        induction users generalizing table with
        | nil => exact fun _ => rfl
        | cons other users ih =>
          intro hname
          obtain ⟨hne, hname⟩ := not_or.1 (mt List.mem_cons.2 hname)
          exact (ih hname).trans (Function.update_of_ne hne _ _)
      exact (hkept hnew).trans (Function.update_self _ _ _)
    · exact ih _ hnodup hmem

namespace P2pService

variable {n : Nat} {host : Fin n → InAddr} {owner : Bytes → Fin n}
  {toUpperCase : JString → JString} {w w' : P2pService n} {e : ServiceEvent n} {i j : Fin n}
  {f : Directory n}

namespace Consistent

theorem survives (h : Consistent host owner w f) :
    ∀ d ∈ w.store.connected, d.Plain ∧ d.Survives := by
  intro d hd
  obtain ⟨i, user, port, -, rfl⟩ := (h.records d).1 hd
  exact listenerAt_arrives (host i) user port

/-- The names in the list have different owners, and there are `n` of these. -/
theorem length_connected_le (h : Consistent host owner w f) : w.store.connected.length ≤ n := by
  have howners : ((userNames w.store.connected).map owner).Nodup := by
    refine List.Nodup.map_on ?_ h.nodup
    have howned : ∀ u ∈ userNames w.store.connected, ∃ user port,
        f (owner u) = some (user, port) ∧ u = serverName user.jstring := by
      intro u hu
      obtain ⟨d, hd, rfl⟩ := List.mem_map.1 hu
      obtain ⟨i, user, port, hi, rfl⟩ := (h.records d).1 hd
      have howner : owner (serverName user.jstring) = i := h.owned i user port hi
      exact ⟨user, port, howner.symm ▸ hi, rfl⟩
    intro u hu v hv heq
    obtain ⟨user, port, hi, rfl⟩ := howned u hu
    obtain ⟨user', port', hi', rfl⟩ := howned v hv
    rw [heq, hi'] at hi
    obtain ⟨rfl, -⟩ := Prod.mk.inj (Option.some.inj hi)
    rfl
  have hle := howners.length_le_card
  rw [Fintype.card_fin, List.length_map] at hle
  unfold userNames at hle
  rwa [List.length_map] at hle

theorem namesOf_decoded (h : Consistent host owner w f) :
    (namesOf (w.store.connected.map UserServerData.decoded)).Nodup := by
  have hnames : (namesOf (w.store.connected.map UserServerData.decoded)).map serverName =
      userNames w.store.connected := by
    unfold namesOf userNames
    rw [List.map_map, List.map_map]
    refine List.map_congr_left fun d hd => ?_
    obtain ⟨i, user, port, -, rfl⟩ := (h.records d).1 hd
    have hname : Utf16.encode (Utf8.decode (serverName user.jstring)) = user.jstring := by
      rw [user.serverName_jstring, user.encode_decode]
    exact congrArg serverName hname
  exact (hnames ▸ h.nodup).of_map

/-- What a listing puts for a connected user. -/
theorem putUsers_eq (h : Consistent host owner w f) {user : UserName} {port : Nat}
    (hj : f j = some (user, port)) (table : JString → Option UsersData) :
    putUsers table (w.store.connected.map UserServerData.decoded) user.jstring =
      some ⟨Utf8.decode (inetNtoa (host j)), Utf8.decode (portText port)⟩ := by
  have hmem : (listenerAt (host j) user.jstring port).decoded ∈
      w.store.connected.map UserServerData.decoded :=
    List.mem_map_of_mem ((h.records _).2 ⟨j, user, port, hj, rfl⟩)
  have hput := putUsers_of_mem table h.namesOf_decoded hmem
  have hname : Utf16.encode (listenerAt (host j) user.jstring port).decoded.name =
      user.jstring := by
    change Utf16.encode (Utf8.decode (serverName user.jstring)) = _
    rw [user.serverName_jstring, user.encode_decode]
  rwa [hname] at hput

end Consistent

/-! ## Tables -/

/-- The reply that a client of the service receives to a LIST_USERS. -/
theorem listReply_eq {o : Option (UserName × Nat)} (h : (w.clients i).Stands o)
    (halive : ∀ p, (w.clients i).shell.progress ≠ .finished p) (meets : Surroundings n) :
    (w.clients i).shell.fields.listReply? (w.network host meets) =
      if (w.clients i).shell.fields.connected = false then none
      else meets.server.map fun x => ⟨listUsers.act x.allocated w.store, false⟩ := by
  generalize w.clients i = k at h halive
  unfold ClientFields.listReply?
  cases h with
  | ended hquiet hlen => exact absurd rfl (halive _)
  | off usersData hquiet hlen _ => rfl
  | on user port usersData hquiet hlen _ =>
    dsimp only
    rw [if_neg (by simp), if_neg (by simp),
      show [some user.jstring] = [user.jstring].map some from rfl, request_some,
      List.flatMap_singleton]
    dsimp only
    rw [server_network, Option.map_map]
    refine congrArg (fun answer => meets.server.map answer) ?_
    funext x
    exact answers_listUsers x w.store user.jstring

/-- The table after a reply of the server. -/
theorem usersData_answered (h : Consistent host owner w f) (hn : n < 2 ^ 31) (c : ClientFields)
    (allocated : Bool) :
    (c.listUsersReceived (some ⟨listUsers.act allocated w.store, false⟩)).2.usersData =
      if allocated then putUsers c.usersData (w.store.connected.map UserServerData.decoded)
      else c.usersData := by
  cases allocated with
  | true =>
    have hlt : w.store.connected.length < 2 ^ 31 := h.length_connected_le.trans_lt hn
    rw [if_pos rfl, ClientFields.listUsersReceived_ok (listUsers_records h.survives hlt)]
    exact ClientFields.usersData_foldl_put _
  | false =>
    have hact : listUsers.act false w.store = htonl otherError3 := rfl
    have hread : readInt (htonl otherError3) = some (3, []) := by decide
    rw [if_neg (by simp), hact]
    unfold ClientFields.listUsersReceived
    simp only [hread]
    rfl

/-- The client types LIST_USERS. -/
def Typed (toUpperCase : JString → JString) (e : ServiceEvent n) : Prop :=
  ∃ input, e.doing = .line (some input) ∧ interpret toUpperCase input = .ok .listUsers

/-- The table of a client after a LIST_USERS of its own. -/
theorem usersData_typed (h : Consistent host owner w f) (hn : n < 2 ^ 31)
    (hs : w.Step host toUpperCase e w') (htyped : Typed toUpperCase e) :
    let c := (w.clients e.client).shell.fields
    (w'.clients e.client).shell.fields.usersData =
      if c.connected = true ∧ ∃ x, e.meets.server = some x ∧ x.allocated = true then
        putUsers c.usersData (w.store.connected.map UserServerData.decoded)
      else c.usersData := by
  intro c
  obtain ⟨⟨hprogress, -⟩, rfl⟩ := hs
  obtain ⟨i, doing, meets⟩ := e
  obtain ⟨input, rfl, hinterpret⟩ := htyped
  have hprompt : (w.clients i).shell.progress = .prompt := hprogress
  have halive : ∀ p, (w.clients i).shell.progress ≠ .finished p := by
    rw [hprompt]
    nofun
  have hreply : (w.clients i).shell.fields.listReply? (w.network host meets) = _ :=
    listReply_eq (h.stands i) halive meets
  have hnext : ((w.next host toUpperCase ⟨i, .line (some input), meets⟩).clients i).shell.fields =
      (c.listUsers (w.network host meets)).2 := by
    unfold next turn Shell.next
    simp only [Function.update_self, hinterpret]
    rfl
  dsimp only
  rw [hnext, ClientFields.usersData_listUsers, hreply]
  cases hconnected : (w.clients i).shell.fields.connected with
  | false =>
    rw [if_pos rfl, if_neg]
    rintro ⟨htrue, -⟩
    exact Bool.false_ne_true htrue
  | true =>
    rw [if_neg (by simp)]
    cases hserver : meets.server with
    | none =>
      rw [if_neg]
      · rfl
      · rintro ⟨-, x, hx, -⟩
        cases hx
    | some x =>
      dsimp only [Option.map_some]
      rw [usersData_answered h hn c x.allocated]
      refine if_congr ?_ rfl rfl
      constructor
      · intro hallocated
        exact ⟨rfl, x, rfl, hallocated⟩
      · rintro ⟨-, x', hx', hallocated⟩
        rw [Option.some.inj hx']
        exact hallocated

/-- The other turns leave it. -/
theorem usersData_untyped (hs : w.Step host toUpperCase e w')
    (htyped : ¬ (i = e.client ∧ Typed toUpperCase e)) :
    (w'.clients i).shell.fields.usersData = (w.clients i).shell.fields.usersData := by
  obtain ⟨-, rfl⟩ := hs
  unfold next
  by_cases hi : i = e.client
  · subst hi
    dsimp only
    rw [Function.update_self]
    have hnone : (w.clients e.client).shell.listReply? toUpperCase (w.turn host e) = none := by
      obtain ⟨i, doing, meets⟩ := e
      cases doing with
      | finish => rfl
      | line input =>
        cases input with
        | none => rfl
        | some input => exact if_neg fun hinput => htyped ⟨rfl, input, rfl, hinput⟩
    have hreplies : (w.clients e.client).shell.RepliesWell toUpperCase (w.turn host e) := by
      intro reply hreply
      rw [hnone] at hreply
      cases hreply
    have hnext := Shell.usersData_next hreplies
    unfold Shell.listing? at hnext
    rw [hnone] at hnext
    exact hnext
  · dsimp only
    rw [Function.update_of_ne hi]

/-- The table of client `i` has the address and the port of client `j` for the user. -/
def Knows (host : Fin n → InAddr) (w : P2pService n) (i j : Fin n) (x : UserName × Nat) : Prop :=
  (w.clients i).shell.fields.usersData x.1.jstring =
    some ⟨Utf8.decode (inetNtoa (host j)), Utf8.decode (portText x.2)⟩

/-- A client types LIST_USERS while connected, and the server is reached and gets its array. -/
structure Lists (toUpperCase : JString → JString) (w : P2pService n) (e : ServiceEvent n) :
    Prop where
  typed : Typed toUpperCase e
  connected : (w.clients e.client).shell.fields.connected = true
  reached : ∃ x, e.meets.server = some x ∧ x.allocated = true

/-- **A listing** gives the client every entry of the directory. -/
theorem knows_of_lists (h : Consistent host owner w f) (hn : n < 2 ^ 31)
    (hs : w.Step host toUpperCase e w') (hlists : w.Lists toUpperCase e) :
    ∃ f', Consistent host owner w' f' ∧ ∀ j x, f' j = some x → Knows host w' e.client j x := by
  have ho : w.Orderly host owner toUpperCase e := by
    obtain ⟨input, hdoing, hinterpret⟩ := hlists.typed
    unfold Orderly
    rw [hdoing]
    dsimp only
    rw [hinterpret]
    trivial
  obtain ⟨o', hmoves, hconsistent⟩ := h.step ho hs
  refine ⟨_, hconsistent, fun j x hj => ?_⟩
  have hon : f e.client ≠ none := by
    have hprogress := hs.1.1
    have hconnected := hlists.connected
    have hstands := h.stands e.client
    intro hnone
    rw [hnone] at hstands
    generalize w.clients e.client = k at hstands hconnected hprogress
    cases hstands with
    | off => cases hconnected
    | ended => cases hturn : w.turn host e <;> rw [hturn] at hprogress <;> cases hprogress
  have hbefore := hmoves.entry_before hj fun _ => hon
  unfold Knows
  rw [usersData_typed h hn hs hlists.typed, if_pos ⟨hlists.connected, hlists.reached⟩]
  exact h.putUsers_eq hbefore _

/-- **One turn** of whichever client leaves it right, as long as the user stays connected. -/
theorem knows_step (h : Consistent host owner w f) (hn : n < 2 ^ 31)
    (ho : w.Orderly host owner toUpperCase e) (hs : w.Step host toUpperCase e w')
    (hon : f j ≠ none) (hknows : ∀ x, f j = some x → Knows host w i j x) :
    ∃ f', Consistent host owner w' f' ∧ ∀ x, f' j = some x → Knows host w' i j x := by
  obtain ⟨o', hmoves, hconsistent⟩ := h.step ho hs
  refine ⟨_, hconsistent, fun x hj => ?_⟩
  have hbefore : f j = some x := hmoves.entry_before hj fun hj => hj ▸ hon
  have hold := hknows x hbefore
  unfold Knows at hold ⊢
  by_cases htyped : i = e.client ∧ Typed toUpperCase e
  · obtain ⟨rfl, htyped⟩ := htyped
    rw [usersData_typed h hn hs htyped]
    split
    · exact h.putUsers_eq hbefore _
    · exact hold
  · rw [usersData_untyped hs htyped]
    exact hold

/-- What is known stays known in a run in which the user stays connected. -/
theorem knows_of_run {w₀ : P2pService n} {steps : List (P2pService n × ServiceEvent n)}
    {user : JString} (h : Run (Step host toUpperCase) w₀ steps w) (hn : n < 2 ^ 31)
    (ho : Guarded (Orderly host owner toUpperCase) steps)
    (hon : ∀ x ∈ steps, (x.1.clients j).On user)
    (h₀ : ∃ f, Consistent host owner w₀ f ∧ ∀ x, f j = some x → Knows host w₀ i j x) :
    ∃ f, Consistent host owner w f ∧ ∀ x, f j = some x → Knows host w i j x := by
  induction h with
  | nil => exact h₀
  | @snoc steps w w' e hrun hs ih =>
    obtain ⟨ho, hlast⟩ := guarded_snoc.1 ho
    obtain ⟨f, hf, hknows⟩ := ih ho fun x hx => hon x (List.mem_append_left _ hx)
    obtain ⟨name, port, hj, -⟩ := ((hf.stands j).on_iff user).1
      (hon (w, e) (List.mem_append_right _ List.mem_cons_self))
    refine knows_step hf hn hlast hs ?_ hknows
    rw [hj]
    exact Option.some_ne_none _

/-! ## The transfer -/

/-- The connection to the address and the port of a client reaches this client. -/
theorem listener_eq (h : Consistent host owner w f) {user : UserName} {port : Nat}
    (hj : f j = some (user, port)) :
    w.listener host ⟨Utf8.decode (inetNtoa (host j)), Utf8.decode (portText port)⟩ = some j := by
  have hport := portOf_portText (h.inRange j user port hj) (Utf8.decode (inetNtoa (host j)))
  have hip := encode_decode_inetNtoa (host j)
  have hself : port ∈ (w.clients j).listening := h.mem_listening_iff.2 ⟨user, hj⟩
  unfold listener
  dsimp only
  rw [hip, hport]
  dsimp only
  cases hfind : (List.finRange n).find? fun k =>
      decide (inetNtoa (host j) = inetNtoa (host k)) && (w.clients k).listening.contains port with
  | none =>
    have hnone := List.find?_eq_none.1 hfind j (List.mem_finRange j)
    simp [hself] at hnone
  | some k =>
    have hk := List.find?_some hfind
    rw [Bool.and_eq_true, decide_eq_true_eq, List.contains_iff_mem] at hk
    obtain ⟨user', hk'⟩ := h.mem_listening_iff.1 hk.2
    rw [h.apart j k user user' port hj hk' (inetNtoa_injective hk.1)]

/-- A GET_FILE by a table that is right. -/
theorem transfer_eq (h : Consistent host owner w f) {name : UserName} {port : Nat}
    (hj : f j = some (name, port)) (hknows : Knows host w i j (name, port))
    {meets : Surroundings n} {remoteFileName localFileName : JString} {text : List Char}
    (hname : OneLine .utf8 (Utf16.decode remoteFileName))
    (hfile : meets.files j (ManageRequest.filesPath ++ Utf16.decode remoteFileName) =
      some (Utf8.encode text)) (hwritable : meets.writable = true) :
    ∃ sent, (w.clients i).shell.fields.transfer (w.network host meets) name.jstring remoteFileName
        localFileName =
      .ok (.ok (Client.filePath ++ Utf16.decode localFileName)
        (Utf8.encode (TextLines.joined text)) sent) := by
  have hport := portOf_portText (h.inRange j name port hj) (Utf8.decode (inetNtoa (host j)))
  have hpeer : (w.network host meets).peer
      ⟨Utf8.decode (inetNtoa (host j)), Utf8.decode (portText port)⟩ =
        some (ManageRequest.run .utf8 (meets.files j)) := by
    unfold network
    dsimp only
    rw [listener_eq h hj]
    rfl
  have hget : Lab.getFile .utf8
      (fun _ => some ⟨Utf8.decode (inetNtoa (host j)), Utf8.decode (portText port)⟩)
      (w.network host meets).peer meets.writable (Utf16.decode name.jstring)
      (Utf16.decode remoteFileName) (Utf16.decode localFileName) = _ :=
    getFile_eq rfl hpeer hname (fun _ _ => trivial) hfile meets.writable
  rw [if_pos hwritable] at hget
  refine ⟨_, Eq.trans ?_ (congrArg Except.ok hget)⟩
  unfold Knows at hknows
  unfold ClientFields.transfer
  rw [hknows]
  dsimp only
  rw [hport]
  rfl

end P2pService

end DistributedSystems.Lab
