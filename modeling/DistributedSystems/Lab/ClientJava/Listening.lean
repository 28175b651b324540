import DistributedSystems.Lab.ClientJava.Shell

/-!
# The listening thread (`clientjava/client.java`, `clientjava/ServerThread.java`)

A client listens for other clients while it is connected: `server_Thread` is then the one server
thread that runs. CONNECT and DISCONNECT keep it so, whatever fails in between, and two things do
not: a CONNECT that is answered with a number the client does not know is taken for a success and
its thread is closed, and the thread goes on after a QUIT that the server does not answer.
`listens_iff` says that there is nothing else.
-/

namespace DistributedSystems.Lab

open Fs Support CommandLine

namespace ClientFields

/-- None of the threads runs. -/
def Quiet (threads : List ServerThread) : Prop := ∀ t ∈ threads, t.running = false

/-- A thread runs and is referred to, and the name is set, exactly while the client is connected. -/
structure Listens (c : ClientFields) : Prop where
  thread_iff : (∃ i t, c.serverThread = some i ∧ c.threads[i]? = some t ∧ t.running = true) ↔
    c.connected = true
  name_iff : c.connectedUserName.isSome = true ↔ c.connected = true

/-- The fields of a client that keeps to this: the last thread runs, under the name that is set, or
none does. -/
inductive Balanced : ClientFields → Prop
  | off {threads : List ServerThread} (usersData : JString → Option UsersData)
      (h : Quiet threads) : Balanced ⟨false, none, none, threads, usersData⟩
  | on {before : List ServerThread} (user : JString) (usersData : JString → Option UsersData)
      (h : Quiet before) :
      Balanced ⟨true, some user, some before.length,
        before ++ [⟨parseString user, false, true⟩], usersData⟩

/-! ## Threads -/

theorem modify_last {α : Type} (f : α → α) (before : List α) (a : α) :
    (before ++ [a]).modify before.length f = before ++ [f a] := by
  induction before with
  | nil => rfl
  | cons b before ih => exact congrArg (b :: ·) ih

theorem quiet_snoc {threads : List ServerThread} {t : ServerThread} :
    Quiet (threads ++ [t]) ↔ Quiet threads ∧ t.running = false := by
  simp [Quiet, or_imp, forall_and]

theorem Balanced.listens {c : ClientFields} (h : Balanced c) : c.Listens := by
  cases h with
  | off usersData h =>
    refine ⟨iff_of_false ?_ Bool.false_ne_true, Iff.rfl⟩
    rintro ⟨i, t, hi, -⟩
    cases hi
  | on user usersData h =>
    exact ⟨iff_of_true ⟨_, _, rfl, List.getElem?_concat_length, rfl⟩ rfl, iff_of_true rfl rfl⟩

theorem Balanced.sameBut {c c' : ClientFields} (h : Balanced c) (hc : SameBut c c') :
    Balanced c' := by
  obtain ⟨usersData, rfl⟩ := hc
  cases h with
  | off _ h => exact .off usersData h
  | on user _ h => exact .on user usersData h

/-- The last thread is closed. -/
theorem closeThread_last (connected : Bool) (name : Option JString) (before : List ServerThread)
    (t : ServerThread) (usersData : JString → Option UsersData) :
    closeThread ⟨connected, name, some before.length, before ++ [t], usersData⟩ =
      ⟨connected, name, none, before ++ [t.closeConnection], usersData⟩ := by
  unfold closeThread
  dsimp only
  rw [modify_last]

/-! ## CONNECT -/

/-- The number that answers a CONNECT, if there is one, is one of the four. -/
def Known (network : Network) (user : JString) : Prop :=
  ∀ answer serverPort receiveOutput rest, network.server = some answer →
    network.localPort = some serverPort →
      readInt (answer (connectRequest user serverPort)).bytes = some (receiveOutput, rest) →
        0 ≤ receiveOutput ∧ receiveOutput ≤ 3

theorem known_iff {network : Network} {user : JString} {answer : Bytes → Reply} {serverPort : Nat}
    (hserver : network.server = some answer) (hport : network.localPort = some serverPort) :
    Known network user ↔ ∀ receiveOutput rest,
      readInt (answer (connectRequest user serverPort)).bytes = some (receiveOutput, rest) →
        0 ≤ receiveOutput ∧ receiveOutput ≤ 3 := by
  unfold Known
  rw [hserver, hport]
  constructor
  · intro hk receiveOutput rest
    exact hk answer serverPort receiveOutput rest rfl rfl
  · intro hk answer' serverPort' receiveOutput rest hanswer hsome
    cases hanswer
    cases hsome
    exact hk receiveOutput rest

section Connect

variable {threads : List ServerThread} {usersData : JString → Option UsersData}

/-- What becomes of the thread that has just been started. -/
theorem connectAnswered_eq (user : JString) (userName : Bytes) (received : Option (Int × Bytes)) :
    connectAnswered ⟨false, none, some threads.length, threads ++ [⟨userName, false, true⟩],
        usersData⟩ user received =
      match received with
      | none => ⟨false, none, none, threads ++ [⟨userName, true, false⟩], usersData⟩
      | some (receiveOutput, _) =>
        if receiveOutput = 0 then
          ⟨true, some user, some threads.length, threads ++ [⟨userName, false, true⟩], usersData⟩
        else if receiveOutput = 1 ∨ receiveOutput = 2 ∨ receiveOutput = 3 then
          ⟨false, none, none, threads ++ [⟨userName, true, false⟩], usersData⟩
        else ⟨true, some user, none, threads ++ [⟨userName, true, false⟩], usersData⟩ := by
  cases received with
  | none => exact closeThread_last false none threads _ usersData
  | some r =>
    obtain ⟨receiveOutput, rest⟩ := r
    unfold connectAnswered connectReceived connectFinally
    dsimp only
    by_cases h0 : receiveOutput = 0
    · subst h0
      rfl
    · rw [if_pos h0, if_neg h0]
      split
      · rw [closeThread_last]
        rfl
      · exact closeThread_last true (some user) threads _ usersData

/-- A CONNECT of a client that is not connected. -/
theorem connect_off (h : Quiet threads) (network : Network) (user : JString) :
    (Known network user ∧
        Balanced (connect network ⟨false, none, none, threads, usersData⟩ user).2) ∨
      ¬ Known network user ∧
        ¬ Listens (connect network ⟨false, none, none, threads, usersData⟩ user).2 := by
  cases hserver : network.server with
  | none =>
    rw [connect_refused rfl (Or.inl hserver)]
    refine Or.inl ⟨fun answer serverPort receiveOutput rest hanswer => ?_, .off usersData h⟩
    rw [hserver] at hanswer
    cases hanswer
  | some answer =>
    cases hport : network.localPort with
    | none =>
      rw [connect_refused rfl (Or.inr hport)]
      refine Or.inl ⟨fun answer serverPort receiveOutput rest _ hsome => ?_, .off usersData h⟩
      rw [hport] at hsome
      cases hsome
    | some serverPort =>
      rw [connect_eq rfl hserver hport, known_iff hserver hport]
      have hclosed : Quiet (threads ++ [⟨parseString user, true, false⟩]) :=
        quiet_snoc.2 ⟨h, rfl⟩
      unfold startThread
      dsimp only
      rw [connectAnswered_eq]
      cases hreceived : readInt (answer (connectRequest user serverPort)).bytes with
      | none => exact Or.inl ⟨by nofun, .off usersData hclosed⟩
      | some r =>
        obtain ⟨receiveOutput, rest⟩ := r
        dsimp only
        by_cases h0 : receiveOutput = 0
        · rw [if_pos h0]
          refine Or.inl ⟨fun receiveOutput' rest' heq => ?_, .on user usersData h⟩
          cases heq
          omega
        · rw [if_neg h0]
          by_cases hrefused : receiveOutput = 1 ∨ receiveOutput = 2 ∨ receiveOutput = 3
          · rw [if_pos hrefused]
            refine Or.inl ⟨fun receiveOutput' rest' heq => ?_, .off usersData hclosed⟩
            cases heq
            omega
          · rw [if_neg hrefused]
            refine Or.inr ⟨fun hk => ?_, fun hlistens => ?_⟩
            · have hbounds := hk receiveOutput rest rfl
              omega
            · obtain ⟨i, t, hi, -⟩ := hlistens.thread_iff.2 rfl
              cases hi

end Connect

/-- CONNECT loses it exactly when the number is not known. -/
theorem Balanced.connect_cases {c : ClientFields} (h : Balanced c) (network : Network)
    (user : JString) :
    (Balanced (c.connect network user).2 ∧ (c.connected = false → Known network user)) ∨
      (¬ Listens (c.connect network user).2 ∧ c.connected = false ∧ ¬ Known network user) := by
  cases h with
  | @off threads usersData h =>
    rcases @connect_off threads usersData h network user with ⟨hknown, hb⟩ | ⟨hknown, hl⟩
    · exact Or.inl ⟨hb, fun _ => hknown⟩
    · exact Or.inr ⟨hl, rfl, hknown⟩
  | on name usersData h => exact Or.inl ⟨.on name usersData h, by nofun⟩

theorem Balanced.disconnect {c : ClientFields} (h : Balanced c) (network : Network)
    (user : JString) : Balanced (c.disconnect network user).2 := by
  cases h with
  | off usersData h => exact .off usersData h
  | @on before name usersData h =>
    by_cases huser : some name = some user
    · rw [disconnect_eq rfl huser]
      unfold disconnectFinally
      dsimp only
      rw [closeThread_last]
      exact .off usersData (quiet_snoc.2 ⟨h, rfl⟩)
    · unfold ClientFields.disconnect
      rw [if_neg (by simp), if_pos huser]
      exact .on name usersData h

/-! ## QUIT -/

/-- The server answers the last request of the user. -/
def QuitAnswered (network : Network) (user : JString) : Prop :=
  ∃ answer, network.server = some answer ∧
    (readInt (answer (parseCommand .disconnect ++ parseString user)).bytes).isSome = true

theorem closeConnectionQuit_running (network : Network) (user : JString) :
    (ServerThread.closeConnectionQuit network ⟨parseString user, false, true⟩).running = false ↔
      QuitAnswered network user := by
  have hrequest : ServerThread.quitRequest ⟨parseString user, false, true⟩ =
      parseCommand .disconnect ++ parseString user := rfl
  unfold ServerThread.closeConnectionQuit QuitAnswered
  rw [hrequest]
  cases hserver : network.server with
  | none => simp
  | some answer =>
    dsimp only
    cases hreceived : readInt (answer (parseCommand .disconnect ++ parseString user)).bytes with
    | none => simp [hreceived]
    | some r =>
      refine iff_of_true rfl ⟨answer, rfl, ?_⟩
      rw [hreceived]
      rfl

/-- **After the end of `main` no thread runs** exactly when a connected user's last request has been
answered. -/
theorem Balanced.quit_iff {c : ClientFields} (h : Balanced c) (network : Network) :
    Quiet (c.quit network).2.threads ↔
      ∀ user, c.connected = true → c.connectedUserName = some user → QuitAnswered network user := by
  cases h with
  | off usersData h => exact iff_of_true h (by nofun)
  | @on before name usersData h =>
    have hquit : (quit network ⟨true, some name, some before.length,
        before ++ [⟨parseString name, false, true⟩], usersData⟩).2.threads =
          before ++ [ServerThread.closeConnectionQuit network ⟨parseString name, false, true⟩] :=
      modify_last _ before _
    rw [hquit, quiet_snoc, closeConnectionQuit_running, and_iff_right h]
    constructor
    · intro hanswered user _ huser
      cases huser
      exact hanswered
    · intro hanswered
      exact hanswered name rfl rfl

end ClientFields

/-! ## Runs -/

namespace Shell

/-- The condition on the fields holds until `main` has ended, and then no thread runs. -/
structure UntilEnd (P : ClientFields → Prop) (s : Shell) : Prop where
  running : (∀ e, s.progress ≠ .finished e) → P s.fields
  ended : ∀ e, s.progress = .finished e → ClientFields.Quiet s.fields.threads

/-- A CONNECT of a client that is not connected is answered with a number that is known, if it is
answered, and the server answers a QUIT. -/
def Steady (toUpperCase : JString → JString) (s : Shell) : Turn → Prop
  | .line none _ => True
  | .line (some input) network => ∀ user, interpret toUpperCase input = .ok (.connect user) →
      s.fields.connected = false → ClientFields.Known network user
  | .finish network => ∀ user, s.fields.connected = true →
      s.fields.connectedUserName = some user → ClientFields.QuitAnswered network user

variable {toUpperCase : JString → JString} {s s' : Shell} {turn : Turn}

theorem UntilEnd.of_running {P : ClientFields → Prop} (h : P s.fields)
    (hne : ∀ e, s.progress ≠ .finished e) : UntilEnd P s :=
  ⟨fun _ => h, fun e he => absurd he (hne e)⟩

theorem UntilEnd.mono {P Q : ClientFields → Prop} (h : UntilEnd P s) (hPQ : ∀ c, P c → Q c) :
    UntilEnd Q s :=
  ⟨fun hne => hPQ _ (h.running hne), h.ended⟩

theorem progressAfter_ne_finished (command : Command) (e? : Option Uncaught) (e : Option Uncaught) :
    progressAfter command e? ≠ .finished e := by
  unfold progressAfter
  split
  · nofun
  · split <;> nofun

/-- **One turn** of a client that keeps to it. -/
theorem step_cases (h : UntilEnd ClientFields.Balanced s) (hs : Step toUpperCase s turn s') :
    (UntilEnd ClientFields.Balanced s' ∧ s.Steady toUpperCase turn) ∨
      (¬ UntilEnd ClientFields.Listens s' ∧ ¬ s.Steady toUpperCase turn) := by
  obtain ⟨hprogress, rfl⟩ := hs
  cases turn with
  | finish network =>
    have hb : s.fields.Balanced := h.running fun e he => by
      rw [show s.progress = .returned from hprogress] at he
      cases he
    have hquit := hb.quit_iff network
    by_cases hsteady : s.Steady toUpperCase (.finish network)
    · exact Or.inl ⟨⟨fun hne => absurd rfl (hne _), fun _ _ => hquit.2 hsteady⟩, hsteady⟩
    · exact Or.inr ⟨fun hend => hsteady (hquit.1 (hend.ended _ rfl)), hsteady⟩
  | line input network =>
    have hb : s.fields.Balanced := h.running fun e he => by
      rw [show s.progress = .prompt from hprogress] at he
      cases he
    cases input with
    | none => exact Or.inl ⟨.of_running hb (by nofun), trivial⟩
    | some input =>
      unfold next Steady
      dsimp only
      cases hinterpret : interpret toUpperCase input with
      | error e => exact Or.inl ⟨.of_running hb (by nofun), by nofun⟩
      | ok command =>
        have hne : ∀ e, progressAfter command (s.fields.perform network command).1 ≠ .finished e :=
          progressAfter_ne_finished command _
        by_cases hconnect : ∃ user, command = .connect user
        · obtain ⟨user, rfl⟩ := hconnect
          rcases hb.connect_cases network user with ⟨hb', hknown⟩ | ⟨hlost, hoff, hknown⟩
          · refine Or.inl ⟨.of_running hb' hne, fun user' heq hoff => ?_⟩
            cases heq
            exact hknown hoff
          · exact Or.inr ⟨fun hend => hlost (hend.running hne), fun hsteady =>
              hknown (hsteady user rfl hoff)⟩
        · refine Or.inl ⟨.of_running ?_ hne, fun user heq _ =>
            absurd ⟨user, Except.ok.inj heq⟩ hconnect⟩
          rcases ClientFields.perform_cases network s.fields command with
            hcommand | ⟨user, rfl⟩ | hsame
          · exact absurd hcommand hconnect
          · exact hb.disconnect network user
          · exact hb.sameBut hsame

/-- **The client listens exactly while it is connected, and not after a QUIT,** in all of a run
exactly if every turn is steady. -/
theorem listens_iff {steps : List (Shell × Turn)} (h : Run (Step toUpperCase) start steps s) :
    (∀ steps' s', steps' <+: steps → Run (Step toUpperCase) start steps' s' →
        UntilEnd ClientFields.Listens s') ↔
      Guarded (Steady toUpperCase) steps := by
  refine h.forall_prefix_iff (I := fun _ s => UntilEnd ClientFields.Balanced s)
    (P := fun _ s => UntilEnd ClientFields.Listens s) ?_ ?_ ?_ ?_
  · exact .of_running (.off _ (by nofun)) (by nofun)
  · intro _ s hb
    exact hb.mono fun _ => ClientFields.Balanced.listens
  · intro _ s turn s' hb hsteady hs
    rcases step_cases hb hs with ⟨hb', -⟩ | ⟨-, hnot⟩
    · exact hb'
    · exact absurd hsteady hnot
  · intro _ s turn s' hb hs hlistens
    rcases step_cases hb hs with ⟨-, hsteady⟩ | ⟨hlost, -⟩
    · exact hsteady
    · exact absurd hlistens hlost

/-- The client of alice, after a CONNECT with success and then a QUIT. -/
def connectedAlice : Shell :=
  start.next upperCase (.line (some (jstring "CONNECT alice")) (replying (writeInt 0)))

def quitAlice : Shell :=
  connectedAlice.next upperCase (.line (some (jstring "QUIT")) unreachable)

theorem run_quitAlice : Run (Step upperCase) start
    [(start, .line (some (jstring "CONNECT alice")) (replying (writeInt 0))),
      (connectedAlice, .line (some (jstring "QUIT")) unreachable)] quitAlice :=
  (Run.nil.snoc ⟨rfl, rfl⟩).snoc ⟨by decide, rfl⟩

theorem step_finish (network : Network) : Step upperCase quitAlice (.finish network)
    (quitAlice.next upperCase (.finish network)) :=
  ⟨show quitAlice.progress = .returned by decide, rfl⟩

theorem guarded_quitAlice : Guarded (Steady upperCase)
    [(start, .line (some (jstring "CONNECT alice")) (replying (writeInt 0))),
      (connectedAlice, .line (some (jstring "QUIT")) unreachable)] := by
  have hzero : readInt (writeInt 0) = some (0, []) := by decide
  have hquit : interpret upperCase (jstring "QUIT") = .ok .quit := by decide
  intro x hx
  rcases List.mem_cons.1 hx with rfl | hx
  · intro user hinterpret hoff answer serverPort receiveOutput rest hserver hport hreceived
    obtain rfl := Option.some.inj hserver
    obtain ⟨rfl, -⟩ := Prod.mk.inj (Option.some.inj (hzero.symm.trans hreceived))
    omega
  · rw [List.mem_singleton.1 hx]
    intro user hinterpret
    cases hquit.symm.trans hinterpret

/-- With an answer to the QUIT. -/
theorem quit_answered_listens :
    UntilEnd ClientFields.Listens
      (quitAlice.next upperCase (.finish (replying (writeInt 0)))) := by
  have hrun := run_quitAlice.snoc (step_finish (replying (writeInt 0)))
  have hsteady : quitAlice.Steady upperCase (.finish (replying (writeInt 0))) := by
    intro user _ _
    exact ⟨_, rfl, rfl⟩
  exact (listens_iff hrun).2 (guarded_snoc.2 ⟨guarded_quitAlice, hsteady⟩) _ _
    (List.prefix_refl _) hrun

/-- Without one, the thread runs on. -/
theorem quit_refused_listens :
    ¬ ∀ (steps : List (Shell × Turn)) (s : Shell), Run (Step upperCase) start steps s →
      UntilEnd ClientFields.Listens s := by
  intro h
  have hend := h _ _ (run_quitAlice.snoc (step_finish unreachable))
  have hrunning : ¬ ClientFields.Quiet
      (quitAlice.next upperCase (.finish unreachable)).fields.threads := by
    unfold ClientFields.Quiet
    decide
  exact hrunning (hend.ended none (by decide))

end Shell

end DistributedSystems.Lab
