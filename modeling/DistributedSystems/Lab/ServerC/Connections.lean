import DistributedSystems.Lab.ServerC.Interleaved

/-!
# Connections of concurrent requests

CONNECT looks a name up in the list and appends it in two calls. Names stay distinct, and no second
CONNECT succeeds before the user is removed, exactly as long as no CONNECT is overtaken between the
two by another one of the same user (`connected_once_iff`). Nothing in the code makes that so:
`connect_twice` is a schedule of two threads.
-/

namespace DistributedSystems.Lab

open Fs Support

/-! ## What a run has done to a user -/

/-- The move ends a CONNECT of the user with a success. -/
def connects (u : Bytes) (x : ServerPool × ServerMove) : Bool :=
  match server.returned x.1 x.2 with
  | some (.connect v _ _, result) => v = u ∧ result = success
  | _ => false

/-- The move takes a record of the user from the list. -/
def removes (u : Bytes) (x : ServerPool × ServerMove) : Bool :=
  match System.called x.1 x.2 with
  | some (_, .deleteElement v) => v = u ∧ u ∈ userNames x.1.shared.connected
  | _ => false

theorem connects_iff {u : Bytes} {x : ServerPool × ServerMove} :
    connects u x = true ↔
      ∃ port address, server.returned x.1 x.2 = some (.connect u port address, success) := by
  unfold connects
  split
  · rename_i v port address result hr
    simp only [hr, decide_eq_true_eq, Option.some.injEq, Prod.mk.injEq, UserRequest.connect.injEq]
    constructor
    · rintro ⟨rfl, rfl⟩; exact ⟨port, address, ⟨rfl, rfl, rfl⟩, rfl⟩
    · rintro ⟨_, _, ⟨rfl, -, -⟩, rfl⟩; exact ⟨rfl, rfl⟩
  · rename_i hne
    apply iff_of_false (by simp)
    rintro ⟨port, address, hr⟩
    exact hne _ _ _ _ hr

theorem removes_iff {u : Bytes} {x : ServerPool × ServerMove} :
    removes u x = true ↔ (∃ r, System.called x.1 x.2 = some (r, .deleteElement u)) ∧
      u ∈ userNames x.1.shared.connected := by
  unfold removes
  split
  · rename_i r v hc
    simp only [hc, decide_eq_true_eq, Option.some.injEq, Prod.mk.injEq, Action.deleteElement.injEq]
    constructor
    · rintro ⟨rfl, hu⟩; exact ⟨⟨r, rfl, rfl⟩, hu⟩
    · rintro ⟨⟨_, -, rfl⟩, hu⟩; exact ⟨rfl, hu⟩
  · rename_i hne
    apply iff_of_false (by simp)
    rintro ⟨⟨r, hc⟩, -⟩
    exact hne _ _ hc

/-- How many CONNECTs have answered with a success since the user was last removed. -/
def successes (u : Bytes) (steps : List (ServerPool × ServerMove)) : Nat :=
  steps.foldl (fun n x => if removes u x then 0 else if connects u x then n + 1 else n) 0

theorem successes_snoc (u : Bytes) (steps : List (ServerPool × ServerMove))
    (x : ServerPool × ServerMove) :
    successes u (steps ++ [x]) =
      if removes u x then 0
      else if connects u x then successes u steps + 1 else successes u steps := by
  simp [successes]

/-- A move that makes no call on the list leaves the counts. -/
theorem successes_snoc_of_quiet {u : Bytes} {steps : List (ServerPool × ServerMove)}
    {x : ServerPool × ServerMove} (hr : ¬ removes u x = true) (hc : ¬ connects u x = true) :
    successes u (steps ++ [x]) = successes u steps := by
  rw [successes_snoc, if_neg hr, if_neg hc]

/-- No user is connected twice. -/
structure ConnectedOnce (steps : List (ServerPool × ServerMove)) (p : ServerPool) : Prop where
  nodup : (userNames p.shared.connected).Nodup
  successes_le : ∀ u, successes u steps ≤ 1

/-- An append finds its name missing. -/
def Fresh (p : ServerPool) (m : ServerMove) : Prop :=
  ∀ d ∈ appended p m, d.name ∉ userNames p.shared.connected

/-! ## What the other threads do -/

/-- The move appends a record of the user. -/
def Adds (u : Bytes) (x : ServerPool × ServerMove) : Prop := ∃ d ∈ appended x.1 x.2, d.name = u

/-- The user that the move calls `delete_element` for. -/
def deleted (x : ServerPool × ServerMove) : Option Bytes :=
  match System.called x.1 x.2 with
  | some (_, .deleteElement u) => some u
  | _ => none

instance (u : Bytes) : DecidablePred (Adds u) :=
  fun x => inferInstanceAs (Decidable (∃ d ∈ appended x.1 x.2, d.name = u))

/-- When a CONNECT appends its user, no other thread has appended the user since the CONNECT has
looked the user up, unless a `delete_element` of the user has followed. -/
def NotOvertaken (earlier : List (ServerPool × ServerMove)) (p : ServerPool) : ServerMove → Prop
  | .spawn _ => True
  | .run i env => ∀ d ∈ appended p (.run i env),
      ¬ Stands (Adds d.name) (deleted · = some d.name)
        (System.sinceCall i (· = .findElementByname d.name) earlier)

instance (earlier : List (ServerPool × ServerMove)) (p : ServerPool) :
    DecidablePred (NotOvertaken earlier p)
  | .spawn _ => inferInstanceAs (Decidable True)
  | .run _ _ => inferInstanceAs (Decidable (∀ _ ∈ _, _))

/-! ## The programs -/

/-- Only a CONNECT appends, its own user, and it succeeds exactly then. -/
def Appends (r : UserRequest) (a : Action) (next : a.Answer → Handler) : Prop :=
  (∀ d, a = .addElement d →
    (∃ port address, r = .connect d.name port address) ∧ ∀ x, (next x).result? = some success) ∧
  ∀ u port address, r = .connect u port address → (∀ d, a ≠ .addElement d) →
    ∀ x, (next x).result? ≠ some success

/-- A call that is no append meets the condition when it is not the last one of a success. -/
theorem appends_of_ne {r : UserRequest} {a : Action} {next : a.Answer → Handler}
    (ha : ∀ d, a ≠ .addElement d) (hnext : ∀ x, (next x).result? ≠ some success) :
    Appends r a next :=
  ⟨fun d hd => absurd hd (ha d), fun _ _ _ _ _ => hnext⟩

theorem appends_program (r : UserRequest) : r.program.Always (Appends r) := by
  cases r with
  | register u => exact registerUser.always_program (by simp [Appends]) (by simp [Appends])
  | unregister u =>
    exact unregisterUser.always_program (by simp [Appends]) (by simp [Appends]) (by simp [Appends])
  | connect u port address =>
    refine connectUser.always_program (appends_of_ne (by simp) fun (registered : Int) => ?_)
      (appends_of_ne (by simp) fun (connected : Int) => ?_) fun a _ => ?_
    · unfold connectUser.checked
      split_ifs <;> simp [Program.result?]
    · unfold connectUser.searched
      split
      · simp [Program.result?]
      · cases address <;> simp [Program.result?]
    · refine ⟨?_, fun _ _ _ _ hne => absurd rfl (hne _)⟩
      rintro _ ⟨⟩
      exact ⟨⟨port, address, rfl⟩, fun _ => rfl⟩
  | disconnect u =>
    exact disconnectUser.always_program (by simp [Appends]) (by simp [Appends]) (by simp [Appends])

/-! ## Runs -/

/-- The invariant: a user counts one success while in the list and none otherwise. -/
structure Counted (steps : List (ServerPool × ServerMove)) (p : ServerPool) : Prop where
  nodup : (userNames p.shared.connected).Nodup
  always : p.Always Appends
  count : ∀ u, successes u steps = if u ∈ userNames p.shared.connected then 1 else 0

namespace Counted

variable {steps : List (ServerPool × ServerMove)} {p p' : ServerPool} {m : ServerMove}

theorem init (t : Tree) : Counted [] (initialPool t) where
  nodup := List.nodup_nil
  always := fun _ ht => absurd ht List.not_mem_nil
  count := fun _ => rfl

theorem connectedOnce (h : Counted steps p) : ConnectedOnce steps p where
  nodup := h.nodup
  successes_le u := by
    rw [h.count]
    split <;> omega

/-- A move without a call that changes the list. -/
theorem quiet (h : Counted steps p) (hs : p'.shared.connected = p.shared.connected)
    (halways : p'.Always Appends) (hrem : ∀ u, ¬ removes u (p, m) = true)
    (hconn : ∀ u, ¬ connects u (p, m) = true) : Counted (steps ++ [(p, m)]) p' where
  nodup := hs ▸ h.nodup
  always := halways
  count u := by rw [successes_snoc_of_quiet (hrem u) (hconn u), h.count, hs]

/-- An append of a missing name. -/
theorem addElement {r : UserRequest} {d : UserServerData} {port : Bytes} {address : Option Bytes}
    (h : Counted steps p) (hnew : d.name ∉ userNames p.shared.connected)
    (hs : p'.shared.connected = Lab.addElement d p.shared.connected) (halways : p'.Always Appends)
    (hc : System.called p m = some (r, .addElement d))
    (hr : server.returned p m = some (.connect d.name port address, success)) :
    Counted (steps ++ [(p, m)]) p' := by
  refine ⟨hs ▸ nodup_addElement h.nodup hnew, halways, fun u => ?_⟩
  have hrem : ¬ removes u (p, m) = true := by simp [removes_iff, hc]
  rw [hs, userNames_addElement]
  by_cases hu : u = d.name
  · subst hu
    have hconn : connects d.name (p, m) = true := connects_iff.2 ⟨port, address, hr⟩
    rw [successes_snoc, if_neg hrem, if_pos hconn, h.count, if_neg hnew, if_pos (by simp)]
  · have hconn : ¬ connects u (p, m) = true := by simp [connects_iff, hr, Ne.symm hu]
    rw [successes_snoc_of_quiet hrem hconn, h.count]
    simp [hu]

/-- A deletion. -/
theorem deleteElement {r : UserRequest} {v : Bytes} (h : Counted steps p)
    (hs : p'.shared.connected = Lab.deleteElement v p.shared.connected)
    (halways : p'.Always Appends) (hc : System.called p m = some (r, .deleteElement v))
    (hconn : ∀ u, ¬ connects u (p, m) = true) : Counted (steps ++ [(p, m)]) p' := by
  refine ⟨hs ▸ nodup_deleteElement h.nodup v, halways, fun u => ?_⟩
  rw [hs]
  simp only [mem_userNames_deleteElement h.nodup]
  by_cases hu : u = v ∧ u ∈ userNames p.shared.connected
  · have hrem : removes u (p, m) = true := removes_iff.2 ⟨⟨r, hu.1 ▸ hc⟩, hu.2⟩
    rw [successes_snoc, if_pos hrem, if_neg fun h => h.2 hu.1]
  · have hrem : ¬ removes u (p, m) = true := by
      intro hrem
      obtain ⟨⟨r', hc'⟩, hmem⟩ := removes_iff.1 hrem
      rw [hc] at hc'
      cases hc'
      exact hu ⟨rfl, hmem⟩
    rw [successes_snoc_of_quiet hrem (hconn u), h.count]
    have hiff : u ∈ userNames p.shared.connected ↔
        u ∈ userNames p.shared.connected ∧ u ≠ v :=
      ⟨fun hmem => ⟨hmem, fun he => hu ⟨he, hmem⟩⟩, And.left⟩
    rw [if_congr hiff rfl rfl]

theorem step (h : Counted steps p) (hfresh : Fresh p m) (hs : server.Step p m p') :
    Counted (steps ++ [(p, m)]) p' := by
  have halways : p'.Always Appends :=
    hs ▸ server.always_move p (fun r _ => appends_program r) h.always
  have hm := server.moved p m
  rw [hs] at hm
  cases hm with
  | spawned r =>
    exact h.quiet rfl halways (by simp [removes_iff, System.called])
      (by simp [connects_iff, System.returned])
  | idle i env hc hr =>
    exact h.quiet rfl halways (by simp [removes_iff, hc]) (by simp [connects_iff, hr])
  | @called env before after r a next ht hc hr =>
    have happ : Appends r a next := (h.always ⟨r, .call a next⟩ (by simp [ht])).1
    by_cases hadd : ∃ d, a = .addElement d
    · obtain ⟨d, rfl⟩ := hadd
      obtain ⟨⟨port, address, rfl⟩, hdone⟩ := happ.1 d rfl
      have hnew : d.name ∉ userNames p.shared.connected := hfresh d (mem_appended_iff.2 ⟨_, hc⟩)
      have hret : server.returned p (.run before.length env) =
          some (.connect d.name port address, success) := by
        rw [hr, hdone]
        rfl
      exact h.addElement hnew rfl halways hc hret
    · have hadd : ∀ d, a ≠ .addElement d := fun d hd => hadd ⟨d, hd⟩
      -- a CONNECT that succeeds ends with its append
      have hconn : ∀ u, ¬ connects u (p, .run before.length env) = true := by
        intro u hconn
        obtain ⟨port, address, hret⟩ := connects_iff.1 hconn
        rw [hr] at hret
        obtain ⟨x, hx, hpair⟩ := Option.map_eq_some_iff.1 hret
        obtain ⟨hreq, rfl⟩ := Prod.mk.inj hpair
        exact happ.2 u port address hreq hadd _ hx
      by_cases hdel : ∃ v, a = .deleteElement v
      · obtain ⟨v, rfl⟩ := hdel
        exact h.deleteElement rfl halways hc hconn
      · have hdel : ∀ v, a ≠ .deleteElement v := fun v hv => hdel ⟨v, hv⟩
        refine h.quiet (connected_perform hadd hdel env p.shared) halways (fun u => ?_) hconn
        simp [removes_iff, hc, hdel u]

end Counted

/-- An append of a name that is in the list makes it there twice. -/
theorem ConnectedOnce.fresh {steps : List (ServerPool × ServerMove)} {p p' : ServerPool}
    {m : ServerMove} (h : ConnectedOnce steps p') (hs : server.Step p m p') : Fresh p m := by
  intro d hd
  obtain ⟨r, hc⟩ := mem_appended_iff.1 hd
  have hm := server.moved p m
  rw [hs] at hm
  cases hm with
  | spawned r => cases hc
  | idle i env hnone => rw [hnone] at hc; cases hc
  | called env ht hcalled =>
    rw [hcalled] at hc
    obtain ⟨rfl, rfl⟩ := Prod.mk.inj (Option.some.inj hc)
    have hnd : (userNames (addElement d p.shared.connected)).Nodup := h.nodup
    rw [userNames_addElement, List.nodup_append] at hnd
    exact fun hmem => hnd.2.2 d.name hmem d.name (List.mem_singleton_self _) rfl

/-- Which users are in the list after a move. -/
theorem mem_connected_move {p : ServerPool} (hnd : (userNames p.shared.connected).Nodup)
    (m : ServerMove) (u : Bytes) :
    u ∈ userNames (server.move p m).shared.connected ↔
      Adds u (p, m) ∨ u ∈ userNames p.shared.connected ∧ ¬ deleted (p, m) = some u := by
  have hm := server.moved p m
  generalize server.move p m = p' at hm
  cases hm with
  | spawned r => simp [Adds, appended, deleted, System.called]
  | idle i env hc => simp [Adds, appended, deleted, hc]
  | @called env before after r a next ht hc hr =>
    have hquiet : (∀ d, a ≠ .addElement d) → (∀ v, a ≠ .deleteElement v) →
        (server.exec env a p.shared).2.connected = p.shared.connected := fun hadd hdelete =>
      connected_perform hadd hdelete env p.shared
    cases a with
    | addElement d =>
      simp [Adds, appended, deleted, hc, server, perform, userNames_addElement, or_comm, eq_comm]
    | deleteElement v =>
      simp [Adds, appended, deleted, hc, server, perform, mem_userNames_deleteElement hnd, eq_comm]
    | isusrRegistered v | findElementByname v | mkdir path | removeDirectory path =>
      simp [Adds, appended, deleted, hc, hquiet (by simp) (by simp)]

/-- Only the answer 0 of a look-up of the name leads to an append. -/
def Searches (_ : UserRequest) : (a : Action) → (a.Answer → Handler) → Prop
  | .findElementByname u, next =>
    ∀ (x : Int) (d : UserServerData), (next x).action? = some (.addElement d) → d.name = u ∧ x = 0
  | _, next => ∀ x d, (next x).action? ≠ some (.addElement d)

theorem searches_program (r : UserRequest) : r.program.Always (Searches r) := by
  cases r with
  | register u =>
    refine registerUser.always_program (fun (registered : Int) d => ?_) fun (made : Int) d => ?_
    · unfold registerUser.checked
      split_ifs <;> simp [Program.action?]
    · unfold registerUser.made
      split_ifs <;> simp [Program.action?]
  | unregister u =>
    refine unregisterUser.always_program (fun (registered : Int) d => ?_)
      (fun (removed : Int) d => ?_) fun _ d => nofun
    · unfold unregisterUser.checked
      split_ifs <;> simp [Program.action?]
    · unfold unregisterUser.removed
      split_ifs <;> simp [Program.action?]
  | connect u port address =>
    refine connectUser.always_program (fun (registered : Int) d => ?_)
      (fun (connected : Int) d hd => ?_) fun a _ _ d => nofun
    · unfold connectUser.checked
      split_ifs <;> simp [Program.action?]
    · unfold connectUser.searched at hd
      split at hd
      · cases hd
      · rename_i hzero
        cases address with
        | none => cases hd
        | some a =>
          cases hd
          exact ⟨rfl, not_not.1 hzero⟩
  | disconnect u =>
    refine disconnectUser.always_program (fun (registered : Int) d => ?_)
      (fun (connected : Int) d hd => ?_) fun _ d => nofun
    · unfold disconnectUser.checked
      split_ifs <;> simp [Program.action?]
    · unfold disconnectUser.searched at hd
      split at hd <;> cases hd

/-- The invariant of a thread in front of its append: its user is in the list exactly when another
thread has come in between. -/
structure Searched (steps : List (ServerPool × ServerMove)) (p : ServerPool) : Prop where
  counted : Counted steps p
  always : p.Always Searches
  mem_iff : ∀ i t d, p.threads[i]? = some t → t.rest.action? = some (.addElement d) →
    (d.name ∈ userNames p.shared.connected ↔
      Stands (Adds d.name) (deleted · = some d.name)
        (System.sinceCall i (· = .findElementByname d.name) steps))

namespace Searched

variable {steps : List (ServerPool × ServerMove)} {p : ServerPool} {m : ServerMove}

theorem init (t : Tree) : Searched [] (initialPool t) where
  counted := .init t
  always := fun _ ht => absurd ht List.not_mem_nil
  mem_iff := fun _ _ _ ht => by cases ht

/-- An append finds its name missing exactly when it is not overtaken. -/
theorem fresh_iff (h : Searched steps p) : Fresh p m ↔ NotOvertaken steps p m := by
  cases m with
  | spawn r => exact iff_of_true (fun d hd => by cases hd) trivial
  | run i env =>
    refine forall₂_congr fun d hd => ?_
    obtain ⟨r, hc⟩ := mem_appended_iff.1 hd
    obtain ⟨next, ht⟩ := System.exists_of_called p hc
    exact not_congr (h.mem_iff i _ d ht rfl)

theorem step (h : Searched steps p) (hG : NotOvertaken steps p m) :
    Searched (steps ++ [(p, m)]) (server.move p m) := by
  refine ⟨h.counted.step (h.fresh_iff.2 hG) rfl,
    server.always_move p (fun r _ => searches_program r) h.always, fun i t d hafter hd => ?_⟩
  rw [mem_connected_move h.counted.nodup]
  cases server.came p hafter with
  | stayed ht hm =>
    rw [System.sinceCall_snoc (System.calls_eq_false_of_stayed hm), stands_snoc,
      h.mem_iff i t d ht hd]
  | started r => cases r <;> cases hd
  | @called env r a next ht hc =>
    have hsearches : Searches r a next := by
      have halways := h.always _ (List.mem_of_getElem? ht)
      exact halways.1
    cases a with
    | findElementByname u =>
      -- the look-up has just answered that the name is missing
      obtain ⟨hname, hzero⟩ := hsearches _ d hd
      rw [System.sinceCall_snoc_of_picked hc (by simp [hname])]
      refine iff_of_false ?_ id
      rintro (⟨d', hd', -⟩ | ⟨hmem, -⟩)
      · obtain ⟨_, hc'⟩ := mem_appended_iff.1 hd'
        rw [hc] at hc'
        cases hc'
      · exact findElementByname_eq_zero_iff.1 hzero (hname ▸ hmem)
    | isusrRegistered u | addElement d' | deleteElement u | mkdir path | removeDirectory path =>
      exact absurd hd (hsearches _ d)

end Searched

/-- **No user is connected twice** all along a run exactly when no append of the run is overtaken:
whenever a CONNECT appends its user, no other thread has appended the user since the look-up of the
CONNECT without a `delete_element` of the user after it. -/
theorem connected_once_iff {t : Tree} {steps : List (ServerPool × ServerMove)} {p : ServerPool}
    (h : Run server.Step (initialPool t) steps p) :
    (∀ steps' p', steps' <+: steps → Run server.Step (initialPool t) steps' p' →
      ConnectedOnce steps' p') ↔ Heeds NotOvertaken steps :=
  h.forall_prefix_iff_heeds (Searched.init t) (fun _ _ hI => hI.counted.connectedOnce)
    (fun _ _ _ _ hI hG hs => hs ▸ hI.step hG)
    (fun _ _ _ _ hI hs hP => hI.fresh_iff.1 (hP.fresh hs))

/-- Two CONNECTs of `alice` with a DISCONNECT in between, the second of which looks her up while the
first one has her connected. -/
theorem alice_connected_once :
    let moves : List ServerMove := [.spawn connectAlice, .spawn (.disconnect (cstring "alice")),
      .run 0 (posix []), .run 0 (posix []), .run 0 (posix []),
      .run 1 (posix []), .run 1 (posix []), .run 1 (posix []),
      .spawn connectAlice, .run 2 (posix []), .run 2 (posix []), .run 2 (posix [])]
    ∀ steps' p', steps' <+: server.schedule (initialPool aliceTree) moves →
      Run server.Step (initialPool aliceTree) steps' p' → ConnectedOnce steps' p' :=
  (connected_once_iff (server.run_schedule _ _)).2 (by decide)

/-- Two threads look `alice` up before either of them appends her. -/
theorem connect_twice :
    ¬ ∀ (t : Tree) (steps : List (ServerPool × ServerMove)) (p : ServerPool),
      Run server.Step (initialPool t) steps p → ConnectedOnce steps p := by
  intro h
  have hrun := server.run_schedule (initialPool aliceTree)
    [.spawn connectAlice, .spawn connectAlice,
      .run 0 (posix []), .run 0 (posix []), .run 1 (posix []), .run 1 (posix []),
      .run 0 (posix []), .run 1 (posix [])]
  exact absurd (h _ _ _ hrun).nodup (by decide)

end DistributedSystems.Lab
