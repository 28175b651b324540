import DistributedSystems.Lab.ClientJava.Methods

/-!
# The shell (`shell` and `main` of `clientjava/client.java`)

A run of the client: its lines, each with what the network does to the method that is called, and
after a QUIT the end of `main`. The loop catches `IOException` only, so every other exception that a
line or a method leaves behind ends the shell. There are five places where one can come from, and
the shell survives exactly the runs that are `Safe` from them (`shell_survives_iff`).
-/

namespace DistributedSystems.Lab

open Fs Support CommandLine

/-- Where the client is: it waits for a line, or the shell has returned or ended with an exception,
or `main` has ended, perhaps with one. -/
inductive Progress
  | prompt
  | returned
  | threw (e : Uncaught)
  | finished (e : Option Uncaught)
deriving DecidableEq

structure Shell where
  fields : ClientFields
  progress : Progress

/-- One turn of the loop, without a line at the end of the input, or what is left of `main`. -/
inductive Turn
  | line (input : Option JString) (network : Network)
  | finish (network : Network)

namespace Shell

/-- Where the client is after a method. -/
def progressAfter (command : Command) : Option Uncaught → Progress
  | some e => .threw e
  | none => if command = .quit then .returned else .prompt

def next (toUpperCase : JString → JString) (s : Shell) : Turn → Shell
  | .line none _ => { s with progress := .threw .nullPointer }
  | .line (some input) network =>
    match interpret toUpperCase input with
    | .error e => { s with progress := .threw e }
    | .ok command =>
      let r := s.fields.perform network command
      ⟨r.2, progressAfter command r.1⟩
  | .finish network =>
    let r := s.fields.quit network
    ⟨r.2, .finished r.1⟩

/-- Lines are read at the prompt, and `main` goes on when the shell has returned. -/
def Step (toUpperCase : JString → JString) (s : Shell) (turn : Turn) (s' : Shell) : Prop :=
  (match turn with
    | .line _ _ => s.progress = .prompt
    | .finish _ => s.progress = .returned) ∧
  s.next toUpperCase turn = s'

def start : Shell := ⟨.init, .prompt⟩

end Shell

/-! ## Safe turns -/

/-- A PUBLISH with its arguments. -/
def IsPublish (toUpperCase : JString → JString) (input : JString) : Prop :=
  ∃ word user fileName first more,
    splitText isWhite input = word :: user :: fileName :: first :: more ∧
      toUpperCase word = nameOf .publish

/-- The number of users that a reply announces, and the text after it. -/
def Reply.listing? (reply : Reply) : Option (Int × List Char) :=
  match readInt reply.bytes with
  | none => none
  | some (receiveOutput, rest) =>
    if receiveOutput = 0 then (readInt rest).map fun r => (r.1, Utf8.decode r.2) else none

/-- The reply does not end before three lines for each user that it announces. -/
def Reply.Complete (reply : Reply) : Prop :=
  reply.reset = false → ∀ numberUsers text, reply.listing? = some (numberUsers, text) →
    3 * numberUsers.toNat ≤ (TextLines.lines text).length

/-- The method meets nothing that it does not catch: there is a thread to close, the list of users
is complete, and the port of a listed user is one. -/
def ClientFields.Safe (network : Network) (c : ClientFields) : Command → Prop
  | .disconnect user => c.connected = true → c.connectedUserName = some user →
      c.serverThread.isSome = true
  | .listUsers => c.connected = true → ∀ user, c.connectedUserName = some user →
      ∀ answer, network.server = some answer →
        (answer (parseCommand .listUsers ++ parseString user)).Complete
  | .getFile userName _ _ => ∀ remoteData, c.usersData userName = some remoteData →
      ∃ port, parseInt remoteData.port = some port ∧ 0 ≤ port ∧ port ≤ 0xFFFF
  | _ => True

namespace Shell

/-- There is a line, a PUBLISH has three characters from its first blank on, and the method is
safe. -/
def Safe (toUpperCase : JString → JString) (s : Shell) : Turn → Prop
  | .line none _ => False
  | .line (some input) network =>
    (IsPublish toUpperCase input → indexOf input space + 3 ≤ input.length) ∧
      ∀ command, interpret toUpperCase input = .ok command → s.fields.Safe network command
  | .finish _ => True

end Shell

/-! ## Lines -/

/-- `substring` throws outside the string. -/
theorem substring_isOk_iff {s : JString} {beginIndex : Int} :
    (substring s beginIndex).isOk = true ↔ 0 ≤ beginIndex ∧ beginIndex ≤ s.length := by
  unfold substring
  split
  · rename_i h
    exact iff_of_true rfl h
  · rename_i h
    exact iff_of_false Bool.false_ne_true h

/-- `indexOf` is -1 or an index of the string. -/
theorem indexOf_bounds (s : JString) (ch : UInt16) :
    -1 ≤ indexOf s ch ∧ indexOf s ch < s.length := by
  unfold indexOf
  split
  · rename_i hmem
    have hlt : s.idxOf ch < s.length := List.idxOf_lt_length_of_mem hmem
    omega
  · omega

/-- The second cut is always possible. -/
theorem descriptionOf_isOk_iff {input : JString} :
    (descriptionOf input).isOk = true ↔ indexOf input space + 3 ≤ input.length := by
  have hfirst := indexOf_bounds input space
  unfold descriptionOf
  cases hrest : substring input (indexOf input space + 3) with
  | error e =>
    refine iff_of_false Bool.false_ne_true fun hle => ?_
    have hok := substring_isOk_iff.2 ⟨by omega, hle⟩
    rw [hrest] at hok
    cases hok
  | ok rest =>
    have hok : (substring input (indexOf input space + 3)).isOk = true := by rw [hrest]; rfl
    have hsecond := indexOf_bounds rest space
    exact iff_of_true (substring_isOk_iff.2 (by omega)) (substring_isOk_iff.1 hok).2

/-- A PUBLISH throws when there is a description and the line ends before the index of its
`substring`. -/
theorem publishLine_isOk_iff {input : JString} {arguments : List JString} :
    (publishLine input arguments).isOk = true ↔
      ∀ user fileName first more, arguments = user :: fileName :: first :: more →
        indexOf input space + 3 ≤ input.length := by
  unfold publishLine
  split
  · rename_i user fileName first more
    rw [← descriptionOf_isOk_iff]
    constructor
    · intro hok _ _ _ _ _
      cases hd : descriptionOf input with
      | error e =>
        rw [hd] at hok
        cases hok
      | ok d => rfl
    · intro hok
      cases hd : descriptionOf input with
      | error e =>
        have herror := hok user fileName first more rfl
        rw [hd] at herror
        cases herror
      | ok d => rfl
  · rename_i hne
    refine iff_of_true rfl ?_
    intro user fileName first more h
    exact absurd h (hne user fileName first more)

/-- **The only line that is an exception itself** is a PUBLISH whose first blank is near its end. -/
theorem interpret_isOk_iff {toUpperCase : JString → JString} {input : JString} :
    (interpret toUpperCase input).isOk = true ↔
      (IsPublish toUpperCase input → indexOf input space + 3 ≤ input.length) := by
  unfold IsPublish
  cases hsplit : splitText isWhite input with
  | nil =>
    have hnothing : interpret toUpperCase input = .ok .nothing := by rw [interpret, hsplit]
    rw [hnothing]
    refine iff_of_true rfl ?_
    rintro ⟨_, _, _, _, _, h, -⟩
    cases h
  | cons word arguments =>
    rcases interpret_cases toUpperCase hsplit with ⟨hname, heq⟩ | ⟨hname, command, heq, -⟩
    · rw [heq, publishLine_isOk_iff]
      constructor
      · rintro h ⟨_, user, fileName, first, more, hwords, -⟩
        exact h user fileName first more (List.cons.inj hwords).2
      · intro h user fileName first more hwords
        exact h ⟨word, user, fileName, first, more, by rw [hwords], hname⟩
    · rw [heq]
      refine iff_of_true rfl ?_
      rintro ⟨_, _, _, _, _, hwords, h⟩
      rw [← (List.cons.inj hwords).1] at h
      exact absurd h hname

/-! ## Received users -/

open TextLines (lines) in
/-- On a connection that has been closed, a field takes a line, and without one `readLine` returns
null. -/
theorem receiveField_closed (text : List Char) :
    ((lines text).length = 0 ∧ receiveField false text = .error .nullPointer) ∨
      ∃ field rest, receiveField false text = .ok (field, rest) ∧
        (lines text).length = (lines rest).length + 1 := by
  cases text with
  | nil => exact Or.inl ⟨by rw [TextLines.lines_nil]; rfl, rfl⟩
  | cons c cs =>
    refine Or.inr ⟨trim (TextLines.cut (c :: cs)).1, (TextLines.cut (c :: cs)).2, rfl, ?_⟩
    rw [TextLines.lines_cons, List.length_cons]

open TextLines (lines) in
/-- And a user takes three lines. -/
theorem receiveUser_closed (text : List Char) :
    ((lines text).length < 3 ∧ receiveUser false text = .error .nullPointer) ∨
      ∃ user rest, receiveUser false text = .ok (user, rest) ∧
        (lines text).length = (lines rest).length + 3 := by
  unfold receiveUser
  rcases receiveField_closed text with ⟨hlen, h⟩ | ⟨name, text₁, h, hlen⟩
  · exact Or.inl ⟨by omega, by rw [h]; rfl⟩
  rcases receiveField_closed text₁ with ⟨hlen₁, h₁⟩ | ⟨ip, text₂, h₁, hlen₁⟩
  · refine Or.inl ⟨by omega, ?_⟩
    simp only [h, h₁, bind, Except.bind]
  rcases receiveField_closed text₂ with ⟨hlen₂, h₂⟩ | ⟨port, text₃, h₂, hlen₂⟩
  · refine Or.inl ⟨by omega, ?_⟩
    simp only [h, h₁, h₂, bind, Except.bind]
  · refine Or.inr ⟨⟨name, ip, port⟩, text₃, ?_, by omega⟩
    simp only [h, h₁, h₂, bind, Except.bind, pure, Except.pure]

/-- A user that is read goes to the front of those that follow. -/
theorem receiveUsers_ok {reset : Bool} {text rest : List Char} {user : ListedUser}
    (h : receiveUser reset text = .ok (user, rest)) (n : Nat) :
    receiveUsers reset (n + 1) text =
      ((receiveUsers reset n rest).1, user :: (receiveUsers reset n rest).2) := by
  rw [receiveUsers, h]

/-- What interrupts one user interrupts the listing. -/
theorem receiveUsers_error {reset : Bool} {text : List Char} {interruption : Interruption}
    (h : receiveUser reset text = .error interruption) (n : Nat) :
    receiveUsers reset (n + 1) text = (some interruption, []) := by
  rw [receiveUsers, h]

/-- A stream that ends leaves a null exactly when there are not three lines for each user. -/
theorem receiveUsers_closed (n : Nat) (text : List Char) :
    (receiveUsers false n text).1 =
      if 3 * n ≤ (TextLines.lines text).length then none else some .nullPointer := by
  induction n generalizing text with
  | zero => rfl
  | succ n ih =>
    rcases receiveUser_closed text with ⟨hlen, h⟩ | ⟨user, rest, h, hlen⟩
    · rw [receiveUsers_error h, if_neg (by omega)]
    · rw [receiveUsers_ok h, ih]
      exact if_congr (by omega) rfl rfl

theorem bind_ne_error {ε α β : Type} {x : Except ε α} {f : α → Except ε β} {e : ε}
    (hx : x ≠ .error e) (hf : ∀ a, f a ≠ .error e) : (x >>= f) ≠ .error e := by
  cases x with
  | error e' => exact fun h => hx (congrArg Except.error (Except.error.inj h))
  | ok a => exact hf a

/-- A broken connection leaves no null. -/
theorem receiveField_reset (text : List Char) : receiveField true text ≠ .error .nullPointer := by
  unfold receiveField
  split
  · nofun
  · rename_i h
    cases text with
    | nil => exact absurd rfl h
    | cons c cs => nofun

/-- On a connection that has been reset, no user ends in a null. -/
theorem receiveUser_reset (text : List Char) : receiveUser true text ≠ .error .nullPointer :=
  bind_ne_error (receiveField_reset text) fun name =>
    bind_ne_error (receiveField_reset name.2) fun ip =>
      bind_ne_error (receiveField_reset ip.2) fun _ => nofun

/-- And so no listing does. -/
theorem receiveUsers_reset (n : Nat) (text : List Char) :
    (receiveUsers true n text).1 ≠ some .nullPointer := by
  induction n generalizing text with
  | zero => simp [receiveUsers]
  | succ n ih =>
    cases h : receiveUser true text with
    | error interruption =>
      rw [receiveUsers_error h]
      intro hnull
      rw [Option.some.inj hnull] at h
      exact receiveUser_reset text h
    | ok r =>
      rw [receiveUsers_ok h]
      exact ih r.2

/-- A field that a whole reply has is one that a closed connection gives. -/
theorem receiveField_of_readField {text : List Char} {r : List Char × List Char}
    (h : Client.readField text = some r) : receiveField false text = .ok r := by
  unfold receiveField
  rw [if_neg (by simp), h]

/-- On a stream that ends they are the users of the round trip. -/
theorem receiveUsers_of_readUsers {n : Nat} {text rest : List Char} {users : List ListedUser}
    (h : Client.readUsers n text = some (users, rest)) :
    receiveUsers false n text = (none, users) := by
  induction n generalizing text users with
  | zero =>
    obtain ⟨rfl, rfl⟩ := Prod.mk.inj (Option.some.inj h)
    rfl
  | succ n ih =>
    unfold Client.readUsers at h
    simp only [Option.bind_eq_bind, Option.bind_eq_some_iff] at h
    obtain ⟨name, h₁, ip, h₂, port, h₃, ⟨users', text'⟩, h₄, hr⟩ := h
    obtain ⟨rfl, rfl⟩ := Prod.mk.inj (Option.some.inj hr)
    have huser : receiveUser false text = .ok (⟨name.1, ip.1, port.1⟩, port.2) := by
      unfold receiveUser
      rw [receiveField_of_readField h₁]
      simp only [bind, Except.bind, receiveField_of_readField h₂, receiveField_of_readField h₃]
      rfl
    rw [receiveUsers_ok huser, ih h₄]

namespace ClientFields

variable {network : Network} {c : ClientFields}

/-- LIST_USERS puts in the table what the round trip is about. -/
theorem listUsersReceived_ok {bytes : Bytes} {users : List ListedUser} {rest : List Char}
    (h : Client.listUsers bytes = .ok users rest) :
    c.listUsersReceived (some ⟨bytes, false⟩) = (none, users.foldl put c) := by
  unfold Client.listUsers at h
  unfold listUsersReceived
  dsimp only
  cases houtput : readInt bytes with
  | none =>
    rw [houtput] at h
    cases h
  | some r =>
    obtain ⟨receiveOutput, more⟩ := r
    rw [houtput] at h
    dsimp only at h ⊢
    split_ifs at h with h3 h0
    rw [if_pos h0]
    cases hnumber : readInt more with
    | none =>
      rw [hnumber] at h
      cases h
    | some r =>
      obtain ⟨numberUsers, text⟩ := r
      rw [hnumber] at h
      dsimp only at h ⊢
      cases hread : Client.readUsers numberUsers.toNat (Utf8.decode text) with
      | none =>
        rw [hread] at h
        cases h
      | some r =>
        rw [hread] at h
        obtain ⟨rfl, rfl⟩ := Client.ListUsers.ok.inj h
        unfold listed
        rw [receiveUsers_of_readUsers hread]
        rfl

/-- A listing of users is survived unless the reply is closed before it has three lines for each. -/
theorem listed_fst (reset : Bool) (numberUsers : Int) (text : List Char) :
    (c.listed reset numberUsers text).1 = none ↔
      (reset = false → 3 * numberUsers.toNat ≤ (TextLines.lines text).length) := by
  unfold listed
  dsimp only
  cases reset with
  | true =>
    rw [if_neg (receiveUsers_reset _ _)]
    exact iff_of_true rfl (fun h => by cases h)
  | false =>
    rw [receiveUsers_closed]
    by_cases hlen : 3 * numberUsers.toNat ≤ (TextLines.lines text).length
    · rw [if_pos hlen]
      exact iff_of_true rfl fun _ => hlen
    · rw [if_neg hlen]
      exact iff_of_false (by simp) fun h => hlen (h rfl)

/-- **LIST_USERS** ends without an exception exactly when the list is complete. -/
theorem listUsersReceived_fst (reply : Reply) :
    (c.listUsersReceived (some reply)).1 = none ↔ reply.Complete := by
  unfold listUsersReceived Reply.Complete Reply.listing?
  dsimp only
  cases readInt reply.bytes with
  | none => simp
  | some r =>
    obtain ⟨receiveOutput, rest⟩ := r
    dsimp only
    by_cases h0 : receiveOutput = 0
    · rw [if_pos h0, if_pos h0]
      cases readInt rest with
      | none => simp
      | some r =>
        refine (listed_fst reply.reset r.1 (Utf8.decode r.2)).trans ?_
        simp
    · rw [if_neg h0, if_neg h0]
      simp

/-! ## Methods -/

/-- Who is connected has a name. -/
def Named (c : ClientFields) : Prop :=
  c.connected = true → ∃ user, c.connectedUserName = some user

/-- A DELETE prints, and neither throws nor changes a field. -/
theorem delete_eq (h : c.Named) (fileName : JString) : c.delete network fileName = (none, c) := by
  unfold delete
  split
  · rfl
  · rename_i hconnected
    obtain ⟨user, huser⟩ := h (by simpa using hconnected)
    exact exchange_named huser .delete [fileName] c.printed

/-- A LIST_CONTENT prints, and neither throws nor changes a field. -/
theorem listContent_eq (h : c.Named) (userName : JString) :
    c.listContent network userName = (none, c) := by
  unfold listContent
  split
  · rfl
  · rename_i hconnected
    obtain ⟨user, huser⟩ := h (by simpa using hconnected)
    exact exchange_named huser .listContent [userName] c.printed

/-- A CONNECT is survived. -/
theorem connect_fst (user : JString) : (c.connect network user).1 = none := by
  unfold connect
  rw [parsed_some]
  dsimp only
  split
  · rfl
  · split <;> rfl

/-- The `finally` of a DISCONNECT needs a thread to close. -/
theorem disconnectFinally_fst : c.disconnectFinally.1 = none ↔ c.serverThread.isSome = true := by
  unfold disconnectFinally
  cases c.serverThread <;> simp

/-- When a DISCONNECT is survived. -/
theorem disconnect_fst (user : JString) :
    (c.disconnect network user).1 = none ↔ c.Safe network (.disconnect user) := by
  by_cases h : c.connected = true ∧ c.connectedUserName = some user
  · rw [disconnect_eq h.1 h.2, disconnectFinally_fst]
    exact ⟨fun hthread _ _ => hthread, fun hsafe => hsafe h.1 h.2⟩
  · refine iff_of_true ?_ fun hconnected huser => absurd ⟨hconnected, huser⟩ h
    unfold disconnect
    split
    · rfl
    · rename_i hconnected
      rw [if_pos]
      exact fun huser => h ⟨by simpa using hconnected, huser⟩

/-- When a LIST_USERS is survived. -/
theorem listUsers_fst (h : c.Named) :
    (c.listUsers network).1 = none ↔ c.Safe network .listUsers := by
  cases hconnected : c.connected with
  | false =>
    unfold listUsers
    rw [if_pos hconnected]
    refine iff_of_true rfl fun hc => ?_
    rw [hconnected] at hc
    cases hc
  | true =>
    obtain ⟨user, huser⟩ := h hconnected
    have hlist : c.listUsers network = c.listUsersReceived
        (network.server.map (· (parseCommand .listUsers ++ parseString user))) := by
      unfold listUsers
      rw [if_neg (by simp [hconnected])]
      have hexchange := @exchange_named network c user huser .listUsers [] c.listUsersReceived
      rwa [List.flatMap_singleton] at hexchange
    rw [hlist]
    cases hserver : network.server with
    | none =>
      refine iff_of_true rfl fun _ _ _ answer hanswer => ?_
      rw [hserver] at hanswer
      cases hanswer
    | some answer =>
      refine (listUsersReceived_fst _).trans ⟨fun hcomplete _ user' huser' answer' hanswer => ?_,
        fun hsafe => hsafe hconnected user huser answer hserver⟩
      rw [hserver] at hanswer
      rw [huser] at huser'
      cases hanswer
      cases huser'
      exact hcomplete

/-- A port that `Socket` takes is the text of a number from 0 to 65535. -/
theorem portOf_isOk_iff {remoteData : UsersData} : (portOf remoteData).isOk = true ↔
    ∃ port, parseInt remoteData.port = some port ∧ 0 ≤ port ∧ port ≤ 0xFFFF := by
  unfold portOf
  cases parseInt remoteData.port with
  | none => simp [Except.isOk, Except.toBool]
  | some port =>
    dsimp only
    split
    · rename_i hport
      exact iff_of_true rfl ⟨port, rfl, hport⟩
    · rename_i hport
      refine iff_of_false Bool.false_ne_true ?_
      rintro ⟨port', hsome, hport'⟩
      rw [Option.some.inj hsome] at hport
      exact hport hport'

/-- When a GET_FILE is survived: the user is not in the table, or has a port that `Socket` takes. -/
theorem getFile_fst (userName remoteFileName localFileName : JString) :
    (c.getFile network userName remoteFileName localFileName).1 = none ↔
      c.Safe network (.getFile userName remoteFileName localFileName) := by
  unfold getFile transfer Safe
  cases hdata : c.usersData userName with
  | none =>
    refine iff_of_true rfl fun remoteData h => ?_
    rw [hdata] at h
    cases h
  | some remoteData =>
    have hport := @portOf_isOk_iff remoteData
    dsimp only
    constructor
    · intro hend remoteData' hdata'
      rw [hdata] at hdata'
      rw [← Option.some.inj hdata']
      apply hport.1
      cases hp : portOf remoteData with
      | error e =>
        rw [hp] at hend
        cases hend
      | ok port => rfl
    · intro hsafe
      have hok := hport.2 (hsafe remoteData hdata)
      cases hp : portOf remoteData with
      | error e =>
        rw [hp] at hok
        cases hok
      | ok port => rfl

/-- **A method ends without an exception exactly when it is safe.** -/
theorem perform_fst (h : c.Named) (command : Command) :
    (c.perform network command).1 = none ↔ c.Safe network command := by
  cases command with
  | disconnect user => exact disconnect_fst user
  | listUsers => exact listUsers_fst h
  | getFile userName remoteFileName localFileName =>
    exact getFile_fst userName remoteFileName localFileName
  | connect user => exact iff_of_true (connect_fst user) trivial
  | delete fileName => exact iff_of_true (congrArg Prod.fst (delete_eq h fileName)) trivial
  | listContent userName =>
    exact iff_of_true (congrArg Prod.fst (listContent_eq h userName)) trivial
  | register user => exact iff_of_true (congrArg Prod.fst (register_eq user)) trivial
  | unregister user => exact iff_of_true (congrArg Prod.fst (unregister_eq user)) trivial
  | publish user fileName description =>
    exact iff_of_true (congrArg Prod.fst (publish_eq user fileName description)) trivial
  | quit => exact iff_of_true rfl trivial
  | syntaxError => exact iff_of_true rfl trivial
  | notValid word => exact iff_of_true rfl trivial
  | nothing => exact iff_of_true rfl trivial

/-! ## What the other methods leave -/

/-- Only the table may have changed. -/
def SameBut (c c' : ClientFields) : Prop := ∃ usersData, c' = { c with usersData := usersData }

theorem SameBut.refl (c : ClientFields) : SameBut c c := ⟨c.usersData, rfl⟩

/-- Entries of the table are no other field. -/
theorem SameBut.put {c c' : ClientFields} (h : SameBut c c') (users : List ListedUser) :
    SameBut c (users.foldl ClientFields.put c') := by
  induction users generalizing c' with
  | nil => exact h
  | cons user users ih =>
    obtain ⟨usersData, rfl⟩ := h
    exact ih ⟨_, rfl⟩

/-- What is done with a reply decides what an exchange changes. -/
theorem exchange_sameBut {request : Except Uncaught Bytes} {received : Option Reply → Ended}
    (h : ∀ reply, SameBut c (received reply).2) :
    SameBut c (c.exchange network request received).2 := by
  unfold exchange
  split
  · exact .refl c
  · exact h _

theorem listUsersReceived_sameBut (reply : Option Reply) :
    SameBut c (c.listUsersReceived reply).2 := by
  unfold listUsersReceived
  split
  · exact .refl c
  · split
    · exact .refl c
    · split
      · split
        · exact .refl c
        · exact (SameBut.refl c).put _
      · exact .refl c

theorem printed_sameBut (reply : Option Reply) : SameBut c (c.printed reply).2 := .refl c

theorem delete_sameBut (fileName : JString) : SameBut c (c.delete network fileName).2 := by
  unfold delete
  split
  · exact .refl c
  · exact exchange_sameBut printed_sameBut

theorem listContent_sameBut (userName : JString) :
    SameBut c (c.listContent network userName).2 := by
  unfold listContent
  split
  · exact .refl c
  · exact exchange_sameBut printed_sameBut

theorem listUsers_sameBut : SameBut c (c.listUsers network).2 := by
  unfold listUsers
  split
  · exact .refl c
  · exact exchange_sameBut listUsersReceived_sameBut

theorem getFile_sameBut (userName remoteFileName localFileName : JString) :
    SameBut c (c.getFile network userName remoteFileName localFileName).2 := by
  unfold getFile
  split <;> exact .refl c

/-- Every method but those of CONNECT and DISCONNECT leaves the connection alone. -/
theorem perform_cases (network : Network) (c : ClientFields) (command : Command) :
    (∃ user, command = .connect user) ∨ (∃ user, command = .disconnect user) ∨
      SameBut c (c.perform network command).2 := by
  cases command with
  | connect user => exact Or.inl ⟨user, rfl⟩
  | disconnect user => exact Or.inr (Or.inl ⟨user, rfl⟩)
  | register user => exact Or.inr (Or.inr (exchange_sameBut printed_sameBut))
  | unregister user => exact Or.inr (Or.inr (exchange_sameBut printed_sameBut))
  | publish user fileName description =>
    exact Or.inr (Or.inr (exchange_sameBut printed_sameBut))
  | delete fileName => exact Or.inr (Or.inr (delete_sameBut fileName))
  | listContent userName => exact Or.inr (Or.inr (listContent_sameBut userName))
  | listUsers => exact Or.inr (Or.inr listUsers_sameBut)
  | getFile userName remoteFileName localFileName =>
    exact Or.inr (Or.inr (getFile_sameBut userName remoteFileName localFileName))
  | quit => exact Or.inr (Or.inr (.refl c))
  | syntaxError => exact Or.inr (Or.inr (.refl c))
  | notValid word => exact Or.inr (Or.inr (.refl c))
  | nothing => exact Or.inr (Or.inr (.refl c))

theorem Named.closeThread (h : c.Named) : c.closeThread.Named := by
  unfold Named ClientFields.closeThread
  cases c.serverThread <;> exact h

/-- A CONNECT that is accepted stores the name with the flag, and any other leaves both. -/
theorem Named.connectReceived (h : c.Named) (user : JString) (receiveOutput : Int) :
    (c.connectReceived user receiveOutput).Named := by
  unfold ClientFields.connectReceived
  split
  · exact h.closeThread
  · exact fun _ => ⟨user, rfl⟩

theorem Named.connectFinally (h : c.Named) (receiveOutput : Int) :
    (c.connectFinally receiveOutput).Named := by
  unfold ClientFields.connectFinally
  split
  · exact h.closeThread
  · exact h

theorem Named.connectAnswered (h : c.Named) (user : JString) (received : Option (Int × Bytes)) :
    (c.connectAnswered user received).Named := by
  unfold ClientFields.connectAnswered
  split
  · exact h.connectFinally 3
  · exact (h.connectReceived user _).connectFinally _

/-- A CONNECT keeps the flag and the name together. -/
theorem Named.connect (h : c.Named) (user : JString) : (c.connect network user).2.Named := by
  have hstarted : ∀ userName, (c.startThread userName).Named := fun _ => h
  unfold ClientFields.connect
  rw [parsed_some]
  dsimp only
  split
  · exact h
  · split
    · exact (hstarted _).connectAnswered user _
    · exact h.connectFinally 3

/-- A DISCONNECT keeps the flag and the name together. -/
theorem Named.disconnect (h : c.Named) (user : JString) :
    (c.disconnect network user).2.Named := by
  unfold ClientFields.disconnect exchange disconnectFinally
  split
  · exact h
  · split
    · exact h
    · split
      · exact h
      · split
        · exact h
        · nofun

/-- All commands keep the flag and the name together. -/
theorem Named.perform (h : c.Named) (command : Command) :
    (c.perform network command).2.Named := by
  rcases perform_cases network c command with ⟨user, rfl⟩ | ⟨user, rfl⟩ | ⟨usersData, heq⟩
  · exact h.connect user
  · exact h.disconnect user
  · rw [heq]
    exact h

end ClientFields

/-! ## Runs -/

namespace Shell

variable {toUpperCase : JString → JString} {s s' : Shell} {turn : Turn}

/-- And so does a turn of the shell. -/
theorem named_next (h : s.fields.Named) (turn : Turn) : (s.next toUpperCase turn).fields.Named := by
  cases turn with
  | finish network =>
    unfold next ClientFields.quit
    dsimp only
    split
    · split <;> exact h
    · exact h
  | line input network =>
    cases input with
    | none => exact h
    | some input =>
      unfold next
      dsimp only
      cases interpret toUpperCase input with
      | error e => exact h
      | ok command => exact h.perform command

/-- In every run, a client that is connected has a name. -/
theorem named_of_run {steps : List (Shell × Turn)} (h : Run (Step toUpperCase) start steps s) :
    s.fields.Named := by
  induction h with
  | nil => nofun
  | snoc _ hs ih =>
    rw [← hs.2]
    exact named_next ih _

/-- The loop goes on or ends exactly when the command has thrown nothing. -/
theorem progressAfter_ne_threw {command : Command} {e? : Option Uncaught} :
    (∀ e, progressAfter command e? ≠ .threw e) ↔ e? = none := by
  unfold progressAfter
  cases e? with
  | none =>
    refine iff_of_true (fun e => ?_) rfl
    dsimp only
    split <;> nofun
  | some e => exact iff_of_false (fun h => h e rfl) (by simp)

/-- **A turn ends the shell with an exception exactly when it is not safe.** -/
theorem next_unthrown_iff (h : s.fields.Named) (turn : Turn) :
    (∀ e, (s.next toUpperCase turn).progress ≠ .threw e) ↔ s.Safe toUpperCase turn := by
  cases turn with
  | finish network => exact iff_of_true (by nofun) trivial
  | line input network =>
    cases input with
    | none => exact iff_of_false (fun hne => hne _ rfl) id
    | some input =>
      have hline := @interpret_isOk_iff toUpperCase input
      unfold next Safe
      dsimp only
      cases hinterpret : interpret toUpperCase input with
      | error e =>
        rw [hinterpret] at hline
        refine iff_of_false (fun hne => hne e rfl) fun hsafe => ?_
        exact Bool.false_ne_true (hline.2 hsafe.1)
      | ok command =>
        rw [hinterpret] at hline
        dsimp only
        rw [progressAfter_ne_threw, ClientFields.perform_fst h]
        constructor
        · intro hsafe
          refine ⟨hline.1 rfl, fun command' heq => ?_⟩
          rw [← Except.ok.inj heq]
          exact hsafe
        · intro hsafe
          exact hsafe.2 command rfl

/-- **The shell survives** exactly the runs whose turns are all safe. -/
theorem shell_survives_iff {steps : List (Shell × Turn)}
    (h : Run (Step toUpperCase) start steps s) :
    (∀ e, s.progress ≠ .threw e) ↔ Guarded (Safe toUpperCase) steps := by
  induction h with
  | nil => exact iff_of_true (by nofun) (guarded_nil _)
  | @snoc steps s s' turn hrun hs ih =>
    obtain ⟨hprogress, rfl⟩ := hs
    rw [guarded_snoc, next_unthrown_iff (named_of_run hrun)]
    refine (and_iff_right (ih.1 fun e hthrew => ?_)).symm
    rw [hthrew] at hprogress
    cases turn <;> cases hprogress

/-- Nothing can be reached. -/
def unreachable : Network := ⟨none, none, upperCase, fun _ => none, false⟩

/-- A server that answers every request with the same bytes, and then ends the stream. -/
def replying (bytes : Bytes) : Network :=
  ⟨some fun _ => ⟨bytes, false⟩, some 4200, upperCase, fun _ => none, false⟩

theorem quit_survives :
    let turn : Turn := .line (some (jstring "QUIT")) unreachable
    Guarded (Safe upperCase) [(start, turn)] ∧
      ∀ e, (start.next upperCase turn).progress ≠ .threw e := by
  intro turn
  have hrun : Run (Step upperCase) start [(start, turn)] (start.next upperCase turn) :=
    Run.nil.snoc ⟨rfl, rfl⟩
  have hquit : interpret upperCase (jstring "QUIT") = .ok .quit := by decide
  have hsplit : splitText isWhite (jstring "QUIT") = [jstring "QUIT"] := by decide
  have hsafe : Guarded (Safe upperCase) [(start, turn)] := by
    intro x hx
    rw [List.mem_singleton.1 hx]
    constructor
    · rintro ⟨_, _, _, _, _, h, -⟩
      rw [hsplit] at h
      cases h
    · intro command h
      cases hquit.symm.trans h
      trivial
  exact ⟨hsafe, (shell_survives_iff hrun).2 hsafe⟩

/-- A connected client, whose server announces a user and then ends the stream. -/
theorem list_users_throws :
    ¬ ∀ (steps : List (Shell × Turn)) (s : Shell), Run (Step upperCase) start steps s →
      ∀ e, s.progress ≠ .threw e := by
  intro h
  have hconnect : Run (Step upperCase) start _ _ :=
    Run.nil.snoc (a := .line (some (jstring "CONNECT alice")) (replying (writeInt 0))) ⟨rfl, rfl⟩
  have hlist := hconnect.snoc
    (a := .line (some (jstring "LIST_USERS")) (replying (writeInt 0 ++ writeInt 1)))
    ⟨by decide, rfl⟩
  exact h _ _ hlist .nullPointer (by decide)

end Shell

end DistributedSystems.Lab
