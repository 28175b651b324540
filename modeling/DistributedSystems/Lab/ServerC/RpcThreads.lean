import DistributedSystems.Lab.ServerC.WholeReplies

/-!
# Threads of the front end by their calls (`serverc/PeerToPeerRPC.c`)

The handlers of the other build, over the calls of `ThreadCalls.lean`. What a call through a stub
leaves in the memory of its result is read by calls of its own, so that a trace shows who reads it.
The six handlers with an `int` read it after a success only. The two listings read theirs in any
case: the status that they set for a failed call is replaced by the test that follows.
-/

namespace DistributedSystems.Lab.Traced

open Fs Support

/-! ## Handlers with an `int` -/

/-- What follows the call. Nothing has been stored to the result before it. -/
def callProcedure.returned (failed ret : Int) : Handler :=
  if ret ≠ rpcSuccess then returnStatus failed else .call .result returnStatus

def callProcedure (procedure : Procedure) (failed : Int) : Handler :=
  .call (.rpc procedure) (callProcedure.returned failed)

section Handlers

variable (v : Variables)

def registerUserRpc : Handler :=
  readField v.userName 2 fun userName => callProcedure (.registerUserRpc userName.text) 2

def unregisterUserRpc : Handler :=
  readField v.userName 2 fun userName => callProcedure (.unregisterUserRpc userName.text) 2

def connectUserRpc.call (userName userPort : Line) : Option Bytes → Handler
  | none => returnStatus 3
  | some clientAddress =>
    callProcedure (.connectUserRpc ⟨userName.text, userPort.text, clientAddress⟩) 3

def connectUserRpc : Handler :=
  readField v.userName 3 fun userName =>
  readField v.userPort 3 fun userPort =>
  .call .getSocketAddress (connectUserRpc.call userName userPort)

def disconnectUserRpc : Handler :=
  readField v.userName 3 fun userName => callProcedure (.disconnectUserRpc userName.text) 3

def publishFileRpc : Handler :=
  readField v.userName 4 fun userName =>
  readField v.fileName 4 fun fileName =>
  readField v.fileDescription 4 fun fileDescription =>
  callProcedure (.publishFileRpc ⟨userName.text, fileName.text, fileDescription.text⟩) 4

def deleteFileRpc : Handler :=
  readField v.userName 4 fun userName =>
  readField v.fileName 4 fun fileName =>
  callProcedure (.deleteFileRpc ⟨userName.text, fileName.text⟩) 4

end Handlers

/-! ## Listings

An element that is not there ends the process. None of these closes the socket. -/

/-- The loop over the users: `n` more, from `ii`. -/
def sendUsers : Nat → Nat → Part Unit
  | 0, _ => .done ()
  | n + 1, ii =>
    .call (.userListVal ii) fun
      | none => .done ()
      | some user => (sendFields [user.name, user.ip, user.port]).bind fun _ => sendUsers n (ii + 1)

def listUsersRpc.listing : Part Unit :=
  .call (.send (htonl 0)) fun
    | none => .done ()
    | some _ =>
      .call .userListLen fun numberUsers =>
      .call (.send (htonl numberUsers)) fun
        | none => .done ()
        | some _ => sendUsers numberUsers 0

def listUsersRpc.checked : Option UserServer → Part Unit
  | none => .done ()
  | some first => if atoi first.name = -1 then refuse 3 else listUsersRpc.listing

def listUsersRpc (locals : Locals) : Part Unit :=
  .call (.readLine locals.userName) fun
    | none => refuse 3
    | some userName =>
      -- what a failed call sets `output` to is replaced by the test of the first name
      .call (.rpc (.listUsers userName.text)) fun _ =>
      .call (.userListVal 0) listUsersRpc.checked

/-- The loop over the titles: `n` more, from `ii`. -/
def sendTitles : Nat → Nat → Part Unit
  | 0, _ => .done ()
  | n + 1, ii =>
    .call (.titleListVal ii) fun
      | none => .done ()
      | some title => (sendFields [title.fileName]).bind fun _ => sendTitles n (ii + 1)

def listContentRpc.listing : Part Unit :=
  .call (.send (htonl 0)) fun
    | none => .done ()
    | some _ =>
      .call .titleListLen fun numberFiles =>
      .call (.send (htonl numberFiles)) fun
        | none => .done ()
        | some _ => sendTitles numberFiles 0

def listContentRpc.checked : Option Title → Part Unit
  | none => .done ()
  | some first =>
    if atoi first.fileName = -1 then refuse 4
    else if atoi first.fileName = -2 then refuse 3
    else listContentRpc.listing

def listContentRpc.sized (titleListLen : Nat) : Part Unit :=
  if titleListLen = 0 then listContentRpc.listing
  else .call (.titleListVal 0) listContentRpc.checked

def listContentRpc (locals : Locals) : Part Unit :=
  .call (.readLine locals.useropName) fun
    | none => refuse 4
    | some useropName =>
      .call (.readLine locals.userName) fun
        | none => refuse 4
        | some userName =>
          -- and here by the test of the length
          .call (.rpc (.listContent useropName.text userName.text)) fun _ =>
          .call .titleListLen listContentRpc.sized

/-! ## Requests -/

section Requests

variable (v : Variables)

def commandSelectorRpc (buffer : Bytes) : Handler :=
  if buffer = Command.register then registerUserRpc v
  else if buffer = Command.unregister then unregisterUserRpc v
  else if buffer = Command.connect then connectUserRpc v
  else if buffer = Command.disconnect then disconnectUserRpc v
  else if buffer = Command.publish then publishFileRpc v
  else if buffer = Command.delete then deleteFileRpc v
  else if buffer = Command.listUsersList then exits (listUsersRpc v.toLocals)
  else if buffer = Command.listContentList then exits (listContentRpc v.toLocals)
  else returnStatus v.output

def processRequestRpc : Part Unit := processRequest.selecting v (commandSelectorRpc v)

end Requests

/-! ## The handlers without their calls -/

/-- A call through a stub with an `int` result, which a failed call does not give. -/
def Env.stubResult (env : Env) (procedure : Procedure) (s : Store) : Option Int × Store :=
  let r := env.rpc procedure s
  (if r.ret ≠ rpcSuccess then none else some r.results.result, r.store)

/-- The client stubs as functions. -/
def Env.stubs (env : Env) : Stubs where
  registerUserRpc1 arg1 := env.stubResult (.registerUserRpc arg1)
  unregisterUserRpc1 arg1 := env.stubResult (.unregisterUserRpc arg1)
  connectUserRpc1 arg1 := env.stubResult (.connectUserRpc arg1)
  disconnectUserRpc1 arg1 := env.stubResult (.disconnectUserRpc arg1)
  publishFileRpc1 arg1 := env.stubResult (.publishFileRpc arg1)
  deleteFileRpc1 arg1 := env.stubResult (.deleteFileRpc arg1)

/-- And those of the listings. -/
def Env.listStubs (env : Env) : ListStubs where
  listUsers1 arg1 s :=
    let r := env.rpc (.listUsers arg1) s
    (r.ret = rpcSuccess, r.results.users)
  listContent1 arg1 arg2 s :=
    let r := env.rpc (.listContent arg1 arg2) s
    (r.ret = rpcSuccess, r.results.titles)

section Answers

variable (env : Env) (v : Variables) (w : World)

theorem answers_callProcedure (procedure : Procedure) (failed : Int) :
    Answers env w (callProcedure procedure failed)
      (answer failed (env.stubResult procedure w.store)) := by
  have hreturned : ∀ w', Answers env w' (callProcedure.returned failed
      (env.rpc procedure w.store).ret)
      (if (env.rpc procedure w.store).ret ≠ rpcSuccess then failed else w'.results.result,
        w'.store) := by
    intro w'
    unfold callProcedure.returned
    split
    · exact answers_returnStatus w' failed
    · exact ⟨.other rfl .nil, rfl, rfl, rfl⟩
  have hafter := hreturned (exec env (.rpc procedure) w).2
  refine ⟨.other rfl hafter.silent, hafter.status.trans ?_, hafter.store, hafter.outcomes⟩
  simp only [answer, Env.stubResult]
  split <;> rfl

theorem answers_registerUserRpc : Answers env w (registerUserRpc v)
    (Lab.registerUserRpc env.stubs v.toLocals ⟨w.input, env.address⟩ w.store) := by
  unfold Lab.registerUserRpc
  refine answers_readField (fun h => by simp only [h]) fun userName rest h => ?_
  simp only [h]
  exact answers_callProcedure env { w with input := rest } _ _

theorem answers_unregisterUserRpc : Answers env w (unregisterUserRpc v)
    (Lab.unregisterUserRpc env.stubs v.toLocals ⟨w.input, env.address⟩ w.store) := by
  unfold Lab.unregisterUserRpc
  refine answers_readField (fun h => by simp only [h]) fun userName rest h => ?_
  simp only [h]
  exact answers_callProcedure env { w with input := rest } _ _

theorem answers_connectUserRpc : Answers env w (connectUserRpc v)
    (Lab.connectUserRpc env.stubs v.toLocals ⟨w.input, env.address⟩ w.store) := by
  unfold Lab.connectUserRpc
  refine answers_readField (fun h => by simp only [h]) fun userName rest h => ?_
  simp only [h]
  refine answers_readField (fun h' => by simp only [h']) fun userPort rest' h' => ?_
  simp only [h', getSocketAddress, connectUserRpc.act]
  have hnext : Answers env { w with input := rest' }
      (connectUserRpc.call userName userPort env.address)
      (connectUserRpc.act env.stubs env.address userName.text userPort.text w.store) := by
    cases env.address with
    | none => exact answers_returnStatus { w with input := rest' } 3
    | some address => exact answers_callProcedure env { w with input := rest' } _ _
  exact ⟨.other rfl hnext.silent, hnext.status, hnext.store, hnext.outcomes⟩

theorem answers_disconnectUserRpc : Answers env w (disconnectUserRpc v)
    (Lab.disconnectUserRpc env.stubs v.toLocals ⟨w.input, env.address⟩ w.store) := by
  unfold Lab.disconnectUserRpc
  refine answers_readField (fun h => by simp only [h]) fun userName rest h => ?_
  simp only [h]
  exact answers_callProcedure env { w with input := rest } _ _

theorem answers_publishFileRpc : Answers env w (publishFileRpc v)
    (Lab.publishFileRpc env.stubs v.toLocals ⟨w.input, env.address⟩ w.store) := by
  unfold Lab.publishFileRpc
  refine answers_readField (fun h => by simp only [h]) fun userName rest h => ?_
  simp only [h]
  refine answers_readField (fun h' => by simp only [h']) fun fileName rest' h' => ?_
  simp only [h']
  refine answers_readField (fun h'' => by simp only [h'']) fun fileDescription rest'' h'' => ?_
  simp only [h'']
  exact answers_callProcedure env { w with input := rest'' } _ _

theorem answers_deleteFileRpc : Answers env w (deleteFileRpc v)
    (Lab.deleteFileRpc env.stubs v.toLocals ⟨w.input, env.address⟩ w.store) := by
  unfold Lab.deleteFileRpc
  refine answers_readField (fun h => by simp only [h]) fun userName rest h => ?_
  simp only [h]
  refine answers_readField (fun h' => by simp only [h']) fun fileName rest' h' => ?_
  simp only [h']
  exact answers_callProcedure env { w with input := rest' } _ _

end Answers

/-! ## The listings without their calls -/

section Listings

variable {env : Env} {w : World}

theorem World.after_after (w : World) (m n : Nat) : (w.after m).after n = w.after (n + m) := by
  have hlater : later (later w.outcomes m) n = later w.outcomes (n + m) := by
    funext i
    exact congrArg w.outcomes (Nat.add_assoc i n m)
  simp only [World.after, hlater]

theorem run_sendFields (env : Env) (fields : List Bytes) (w : World) :
    ∃ n, ((sendFields fields).run (exec env) w).2 = w.after n := by
  induction fields generalizing w with
  | nil => exact ⟨0, rfl⟩
  | cons field rest ih =>
    obtain ⟨n, hn⟩ := ih (w.after (fieldCalls w.outcomes))
    refine ⟨n + fieldCalls w.outcomes, ?_⟩
    rw [sendFields, Program.run_bind, run_writeLine, hn, World.after_after]

/-- Some fields, and then what follows them. -/
theorem sent_bind_sendFields {next : Unit → Part Unit} {bytes : Bytes} (fields : List Bytes)
    (hwhole : ∀ n, w.outcomes n = .whole)
    (hnext : ∀ n, sentBytes ((next ()).trace (exec env) (w.after n)) = bytes) :
    sentBytes (((sendFields fields).bind next).trace (exec env) w) =
      fields.flatMap sendField ++ bytes := by
  obtain ⟨n, hn⟩ := run_sendFields env fields w
  have hfields := (writes_sendFields env w fields).bytes
  rw [(onWire_eq_message_iff _).2 (whole_fieldChunks hwhole fields), message_fieldChunks] at hfields
  rw [Program.trace_bind, hn, sentBytes_append, hfields]
  exact congrArg _ (hnext n)

theorem sent_sendUsers (n ii : Nat) (hwhole : ∀ n, w.outcomes n = .whole)
    (hlength : ii + n ≤ w.results.users.val.length) :
    sentBytes ((sendUsers n ii).trace (exec env) w) =
      ((w.results.users.val.drop ii).take n).flatMap sendUserServer := by
  induction n generalizing ii w with
  | zero => rfl
  | succ n ih =>
    have hii : ii < w.results.users.val.length := by omega
    rw [sendUsers, Program.trace_call]
    simp only [exec, List.getElem?_eq_getElem hii]
    rw [List.drop_eq_getElem_cons hii, List.take_succ_cons, List.flatMap_cons]
    have hrest (m : Nat) : sentBytes ((sendUsers n (ii + 1)).trace (exec env) (w.after m)) =
        ((w.results.users.val.drop (ii + 1)).take n).flatMap sendUserServer :=
      ih (w := w.after m) (ii + 1) (fun i => hwhole _)
        (show _ ≤ w.results.users.val.length by omega)
    refine (sent_bind_sendFields _ hwhole hrest).trans ?_
    simp [sendUserServer]

theorem sent_sendTitles (n ii : Nat) (hwhole : ∀ n, w.outcomes n = .whole)
    (hlength : ii + n ≤ w.results.titles.val.length) :
    sentBytes ((sendTitles n ii).trace (exec env) w) =
      ((w.results.titles.val.drop ii).take n).flatMap fun title => sendField title.fileName := by
  induction n generalizing ii w with
  | zero => rfl
  | succ n ih =>
    have hii : ii < w.results.titles.val.length := by omega
    rw [sendTitles, Program.trace_call]
    simp only [exec, List.getElem?_eq_getElem hii]
    rw [List.drop_eq_getElem_cons hii, List.take_succ_cons, List.flatMap_cons]
    have hrest (m : Nat) : sentBytes ((sendTitles n (ii + 1)).trace (exec env) (w.after m)) =
        ((w.results.titles.val.drop (ii + 1)).take n).flatMap fun title =>
          sendField title.fileName :=
      ih (w := w.after m) (ii + 1) (fun i => hwhole _)
        (show _ ≤ w.results.titles.val.length by omega)
    refine (sent_bind_sendFields _ hwhole hrest).trans ?_
    simp

theorem sent_other {a : Call} {next : a.Answer → Part Unit}
    (h : chunkOf ⟨a, (exec env a w).1⟩ = none) :
    sentBytes ((Program.call a next : Part Unit).trace (exec env) w) =
      sentBytes ((next (exec env a w).1).trace (exec env) (exec env a w).2) := by
  unfold sentBytes
  rw [Program.trace_call, List.filterMap_cons_none h]

/-- A send, and then what follows its success. -/
theorem sent_send {data bytes : Bytes} {next : Option Nat → Part Unit}
    (hwhole : ∀ n, w.outcomes n = .whole)
    (hnext : ∀ m, sentBytes ((next (some m)).trace (exec env) (w.after 1)) = bytes) :
    sentBytes ((Program.call (.send data) next : Part Unit).trace (exec env) w) =
      data ++ bytes := by
  have htaken : (w.outcomes 0).taken data = some data.length := by rw [hwhole 0]; rfl
  rw [Program.trace_call, exec_send, htaken]
  change ((⟨data, some data.length⟩ : Chunk UInt8).put ++ sentBytes _) = _
  rw [hnext]
  simp [Chunk.put]

theorem sent_refuse (status : Int) (hwhole : ∀ n, w.outcomes n = .whole) :
    sentBytes ((refuse status).trace (exec env) w) = htonl status :=
  (sent_send hwhole fun _ => rfl).trans (List.append_nil _)

theorem sent_usersListing {bytes : Bytes} (hwhole : ∀ n, w.outcomes n = .whole)
    (h : (w.results.users.elements.map fun users =>
      htonl 0 ++ htonl w.results.users.len ++ users.flatMap sendUserServer) = some bytes) :
    sentBytes (listUsersRpc.listing.trace (exec env) w) = bytes := by
  unfold ReceivedList.elements at h
  split at h
  · rename_i hlen
    rw [Option.map_some, List.append_assoc] at h
    rw [← Option.some.inj h]
    refine sent_send hwhole fun _ => ?_
    refine (sent_other rfl).trans (sent_send (w := w.after 1) (fun n => hwhole _) fun _ => ?_)
    exact sent_sendUsers (w := (w.after 1).after 1) _ 0 (fun n => hwhole _)
      (show 0 + w.results.users.len ≤ w.results.users.val.length by omega)
  · cases h

theorem sent_contentListing {bytes : Bytes} (hwhole : ∀ n, w.outcomes n = .whole)
    (h : Lab.sendTitles w.results.titles = some bytes) :
    sentBytes (listContentRpc.listing.trace (exec env) w) = bytes := by
  unfold Lab.sendTitles ReceivedList.elements at h
  split at h
  · rename_i hlen
    rw [Option.map_some, List.append_assoc] at h
    rw [← Option.some.inj h]
    refine sent_send hwhole fun _ => ?_
    refine (sent_other rfl).trans (sent_send (w := w.after 1) (fun n => hwhole _) fun _ => ?_)
    exact sent_sendTitles (w := (w.after 1).after 1) _ 0 (fun n => hwhole _)
      (show 0 + w.results.titles.len ≤ w.results.titles.val.length by omega)
  · cases h

theorem sent_sized {bytes : Bytes} (hwhole : ∀ n, w.outcomes n = .whole)
    (h : (if w.results.titles.len = 0 then Lab.sendTitles w.results.titles
      else
        match w.results.titles.val.head? with
        | none => none
        | some first =>
          if atoi first.fileName = -1 then some (htonl 4)
          else if atoi first.fileName = -2 then some (htonl 3)
          else Lab.sendTitles w.results.titles) = some bytes) :
    sentBytes ((listContentRpc.sized w.results.titles.len).trace (exec env) w) = bytes := by
  unfold listContentRpc.sized
  split at h
  · rename_i hlen
    rw [if_pos hlen]
    exact sent_contentListing hwhole h
  · rename_i hlen
    rw [if_neg hlen, sent_other rfl]
    simp only [exec, ← List.head?_eq_getElem?]
    cases hfirst : w.results.titles.val.head? with
    | none =>
      rw [hfirst] at h
      cases h
    | some first =>
      rw [hfirst] at h
      dsimp only at h
      rw [listContentRpc.checked]
      split at h
      · rename_i hatoi
        rw [if_pos hatoi, ← Option.some.inj h]
        exact sent_refuse 4 hwhole
      · rename_i hatoi
        rw [if_neg hatoi]
        split at h
        · rename_i hatoi'
          rw [if_pos hatoi', ← Option.some.inj h]
          exact sent_refuse 3 hwhole
        · rename_i hatoi'
          rw [if_neg hatoi']
          exact sent_contentListing hwhole h

/-- **LIST_USERS of the front end, with every send and write whole**, sends what it does without its
calls. -/
theorem sent_listUsersRpc (v : Variables) {bytes : Bytes} (hwhole : ∀ n, w.outcomes n = .whole)
    (h : Lab.listUsersRpc env.listStubs v.toLocals ⟨w.input, env.address⟩ w.store = some bytes) :
    sentBytes ((listUsersRpc v.toLocals).trace (exec env) w) = bytes := by
  unfold Lab.listUsersRpc at h
  unfold listUsersRpc
  rw [sent_other rfl]
  cases huser : receive v.userName w.input with
  | none =>
    obtain ⟨rest, hrest⟩ := exec_readLine_none env huser
    rw [huser] at h
    rw [hrest, ← Option.some.inj h]
    exact sent_refuse (w := { w with input := rest }) _ hwhole
  | some r =>
    obtain ⟨userName, rest⟩ := r
    rw [exec_readLine_some env huser]
    rw [huser] at h
    simp only [listUsersRpc.act, Env.listStubs] at h
    dsimp only
    rw [sent_other rfl, sent_other rfl]
    simp only [exec, ← List.head?_eq_getElem?]
    generalize hresults : (env.rpc (.listUsers userName.text) w.store).results = results at h ⊢
    cases hfirst : results.users.val.head? with
    | none =>
      rw [hfirst] at h
      cases h
    | some first =>
      rw [hfirst] at h
      dsimp only at h
      rw [listUsersRpc.checked]
      split at h
      · rename_i hatoi
        rw [if_pos hatoi, ← Option.some.inj h]
        exact sent_refuse 3 hwhole
      · rename_i hatoi
        rw [if_neg hatoi]
        exact sent_usersListing hwhole h

/-- **LIST_CONTENT of the front end, with every send and write whole**, sends what it does without
its calls. -/
theorem sent_listContentRpc (v : Variables) {bytes : Bytes} (hwhole : ∀ n, w.outcomes n = .whole)
    (h : Lab.listContentRpc env.listStubs v.toLocals ⟨w.input, env.address⟩ w.store =
      some bytes) :
    sentBytes ((listContentRpc v.toLocals).trace (exec env) w) = bytes := by
  unfold Lab.listContentRpc at h
  unfold listContentRpc
  rw [sent_other rfl]
  cases huserop : receive v.useropName w.input with
  | none =>
    obtain ⟨rest, hrest⟩ := exec_readLine_none env huserop
    rw [huserop] at h
    rw [hrest, ← Option.some.inj h]
    exact sent_refuse (w := { w with input := rest }) _ hwhole
  | some r =>
    obtain ⟨useropName, rest⟩ := r
    rw [exec_readLine_some env huserop]
    rw [huserop] at h
    dsimp only at h ⊢
    rw [sent_other rfl]
    cases huser : receive v.userName rest with
    | none =>
      obtain ⟨rest', hrest'⟩ := exec_readLine_none env (w := { w with input := rest }) huser
      rw [huser] at h
      rw [hrest', ← Option.some.inj h]
      exact sent_refuse (w := { w with input := rest' }) _ hwhole
    | some r' =>
      obtain ⟨userName, rest'⟩ := r'
      rw [exec_readLine_some env (w := { w with input := rest }) huser]
      rw [huser] at h
      simp only [listContentRpc.act, Env.listStubs] at h
      dsimp only
      rw [sent_other rfl, sent_other rfl]
      exact sent_sized (w := (exec env (.rpc (.listContent useropName.text userName.text))
        { w with input := rest' }).2) hwhole h

end Listings

end DistributedSystems.Lab.Traced
