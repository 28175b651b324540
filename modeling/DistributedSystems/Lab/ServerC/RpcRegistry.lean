import DistributedSystems.Lab.ServerC.StorageClnt
import DistributedSystems.Lab.ServerC.StoreRegistry
import DistributedSystems.Lab.ServerRpc.Agreement

/-!
# The registry over the wire

The front end and the daemon together are the same registry as the in-process server, from the bytes
of a connection through the encoded calls and back (`wired_registers_of_run`). The listings leave
the registry as it is.
-/

namespace DistributedSystems.Lab

open Fs Support

/-- A connection with plain names and a description that has arrived whole, from a known address, on
a system whose calls succeed. -/
structure Connection.Named (cwd : Pos) (k : Connection) : Prop where
  calls : k.env.calls = posix cwd
  address : k.address ≠ none
  operation : ∀ op, operationOf k.locals k.arrived = some op → op.WellNamed
  whole : ∀ u f d, operationOf k.locals k.arrived = some (.change (.publish u f d)) →
    d.length = d.text.length

/-- What a connection and its reply are to the registry. -/
def RegistersRpc (r : ServerRegistry) (a : Connection × Option Bytes) (r' : ServerRegistry) :
    Prop :=
  ∃ op, operationOf a.1.locals a.1.arrived = some op ∧
    match op with
    | .change request =>
      a.2 = some (htonl (r.apply (request.change (a.1.address.map inetNtoa))).1.status) ∧
        (r.apply (request.change (a.1.address.map inetNtoa))).2 = r'
    | .listUsers _ => r = r'
    | .listContent _ _ => r = r'

section Runs

variable {cwd : Pos} {s s' : Store}

/-- In a store of the shape, the daemon does what the in-process server does. -/
theorem serveRpc_of_shaped (ht : Shaped cwd s.tree) {r : Request} (hr : r.WellNamed)
    (hwhole : ∀ u f d, r = .publish u f d → d.length = d.text.length) (address : Bytes) :
    serveRpc (.delivering (posix cwd)) (some address) r s =
      serve (posix cwd) (some address) r s := by
  have hlawful := posix_lawful cwd
  cases r with
  | register u => exact ((registerUser.act_eq_rpc_iff hlawful u.text).2 ht.users).symm
  | unregister u => exact (unregisterUser.act_eq_rpc hlawful u.text).symm
  | connect u port =>
    exact ((connectUser.act_eq_rpc_iff hlawful address u.text port.text).2 ht.users).symm
  | disconnect u => exact ((disconnectUser.act_eq_rpc_iff hlawful u.text).2 ht.users).symm
  | publish u f d =>
    have hdirs : ∀ n ∈ s.tree.names (usersPos cwd),
        s.tree.get (usersPos cwd ++ [n]) = some .dir := by
      intro n hn
      obtain ⟨e, he⟩ := Option.isSome_iff_exists.1 (Tree.mem_names.1 hn)
      rw [he, ht.user n e he]
    have hfile := (hr.file f rfl).2
    exact ((publishFile.act_eq_rpc_iff hlawful hdirs (u := u) hfile (hwhole u f d rfl)).2
      ht.users).symm
  | delete u f => exact (deleteFile.act_eq_rpc hlawful (u := u) (hr.file f rfl).2).symm

/-- **One connection** over stubs that deliver. -/
theorem registersRpc_step (h : WellKept cwd s) {a : Connection × Option Bytes}
    (ha : a.1.Named cwd) (hs : FrontEndStep Connection.delivered s a s') :
    WellKept cwd s' ∧ RegistersRpc (s.registry cwd) a (s'.registry cwd) := by
  obtain ⟨op, hop, hrun⟩ := hs
  obtain ⟨hcalls, haddress, hnamed, hwhole⟩ := ha
  obtain ⟨x, hx⟩ := Option.ne_none_iff_exists.1 haddress
  have hwell := hnamed op hop
  cases op with
  | change request =>
    have hfollows := serve_follows h hwell (some (inetNtoa x))
    have hsame := serveRpc_of_shaped h.shaped hwell
      (fun u f d hr => hwhole u f d (hr ▸ hop)) (inetNtoa x)
    unfold Connection.delivered Operation.runRpc at hrun
    dsimp only at hrun
    rw [hcalls, ← hx, Option.map_some, hsame] at hrun
    obtain ⟨hreply, rfl⟩ := Prod.mk.inj hrun
    refine ⟨hfollows.kept, .change request, hop, ?_⟩
    rw [← hx, Option.map_some]
    exact ⟨by rw [← hreply, hfollows.status], hfollows.registry.symm⟩
  | listUsers u =>
    obtain ⟨-, rfl⟩ := Prod.mk.inj hrun
    exact ⟨h, .listUsers u, hop, rfl⟩
  | listContent v u =>
    obtain ⟨-, rfl⟩ := Prod.mk.inj hrun
    exact ⟨h, .listContent v u, hop, rfl⟩

/-- **The RPC deployment is the registry**, over the wire: in a run of connections with plain names
and NULL pointers of lists, on a tree whose `./Users` holds directories of files, every status and
every change is the registry's, and only registered users are connected. -/
theorem wired_registers_of_run {t : Tree} {steps : List (Store × Connection × Option Bytes)}
    (h : Run (FrontEndStep Connection.wired) (initServer t) steps s) (ht : Shaped cwd t)
    (hG : Guarded (fun s a => a.1.Usual cwd s ∧ a.1.Named cwd) steps) :
    Run RegistersRpc ((initServer t).registry cwd)
        (steps.map fun x => (x.1.registry cwd, x.2)) (s.registry cwd) ∧
      (s.registry cwd).Backed := by
  have hinit : RecordsCarried (initServer t) ∧ WellKept cwd (initServer t) :=
    ⟨listable_initServer t, ht, List.nodup_nil⟩
  obtain ⟨-, hrun⟩ := h.image (f := Store.registry cwd)
    (I := fun s => RecordsCarried s ∧ WellKept cwd s) hinit
    (by
      rintro s a s' ⟨hcarried, hkept⟩ ⟨husual, hnamed⟩ hs
      have hdelivered := (frontEndStep_wired_iff hcarried husual).1 hs
      obtain ⟨hkept', hregisters⟩ := registersRpc_step hkept hnamed hdelivered
      exact ⟨⟨listable_step hcarried hdelivered, hkept'⟩, hregisters⟩) hG
  refine ⟨hrun, hrun.invariant (fun u _ => rfl) ?_⟩
  · rintro r a r' hr ⟨op, -, hop⟩
    cases op with
    | change request => exact hop.2 ▸ hr.apply _
    | listUsers u => exact hop ▸ hr
    | listContent v u => exact hop ▸ hr

/-- Alice registers over the wire. -/
theorem wired_registers_alice :
    let s := (storage1 ⟨posix [], true, .registerUserRpc (cstring "alice")⟩
      (initServer usersTree)).2
    Run RegistersRpc ((initServer usersTree).registry [])
        [((initServer usersTree).registry [], registeringAlice, some (htonl 0))]
        (s.registry []) ∧ (s.registry []).Backed := by
  intro s
  have hG : Guarded (fun s a => a.1.Usual [] s ∧ a.1.Named [])
      [(initServer usersTree, registeringAlice, some (htonl 0))] := by
    intro x hx
    obtain rfl := List.mem_singleton.1 hx
    have hop : operationOf registeringAlice.locals registeringAlice.arrived =
        some (.change (.register (Line.of (cstring "alice")))) := by decide
    have hvalid : ValidName (cstring "alice") := by decide
    refine ⟨⟨SysCalls.le_refl _, by decide, by decide, by decide, by decide, fun _ _ _ => rfl⟩, rfl,
      Option.some_ne_none _, ?_, ?_⟩
    · intro op hop'
      obtain rfl := Option.some.inj (hop.symm.trans hop')
      refine ⟨hvalid, ?_⟩
      intro f hf
      cases hf
    · intro u f d hop'
      cases hop.symm.trans hop'
  have hshaped : Shaped [] usersTree := (shaped_of_new (t := .empty) rfl rfl).1
  have hstep : FrontEndStep Connection.wired (initServer usersTree)
      (registeringAlice, some (htonl 0)) s :=
    ⟨.change (.register (Line.of (cstring "alice"))), by decide, by decide⟩
  exact wired_registers_of_run (Run.nil.snoc hstep) hshaped hG

end Runs

end DistributedSystems.Lab
