import DistributedSystems.Lab.ClientJava.Listening

/-!
# Requests of the client (`clientjava/client.java`, `serverc/PeerToPeer.c`)

Which bytes a turn of the shell writes to the server, which port its thread then listens on, and
what the server does to the list of connected users for them. A method learns nothing of the server
but the reply to these bytes (`perform_congr`).
-/

namespace DistributedSystems.Lab

open Fs Support CommandLine

/-! ## What is written -/

namespace ClientFields

/-- The bytes that a method writes on its connection to the server, if it opens one. -/
def sent (network : Network) (c : ClientFields) : Command → Option Bytes
  | .register user => (request .register [some user]).toOption
  | .unregister user => (request .unregister [some user]).toOption
  | .connect user =>
    if c.connected then none
    else
      match network.localPort with
      -- the connection is closed again before anything has been written
      | none => some []
      | some serverPort => some (connectRequest user serverPort)
  | .disconnect user =>
    if c.connected = false then none
    else if c.connectedUserName ≠ some user then none
    else (request .disconnect [some user]).toOption
  | .publish user fileName description =>
    (request .publish
      [some user, some fileName, some (network.toUppercase description)]).toOption
  | .delete fileName =>
    if c.connected = false then none
    else (request .delete [c.connectedUserName, some fileName]).toOption
  | .listUsers =>
    if c.connected = false then none
    else (request .listUsers [c.connectedUserName]).toOption
  | .listContent userName =>
    if c.connected = false then none
    else (request .listContent [c.connectedUserName, some userName]).toOption
  | .getFile _ _ _ | .quit | .syntaxError | .notValid _ | .nothing => none

/-- The port of the `ServerSocket` that a method opens for a new thread. -/
def opened (network : Network) (c : ClientFields) : Command → Option Nat
  | .connect _ =>
    if c.connected then none
    else if network.server.isSome then network.localPort else none
  | _ => none

end ClientFields

namespace Shell

/-- The bytes that a turn writes to the server, if it opens a connection to it. -/
def sent (toUpperCase : JString → JString) (s : Shell) : Turn → Option Bytes
  | .line none _ => none
  | .line (some input) network =>
    match interpret toUpperCase input with
    | .error _ => none
    | .ok command => s.fields.sent network command
  | .finish _ =>
    if s.fields.connected then
      (s.fields.serverThread.bind (s.fields.threads[·]?)).map ServerThread.quitRequest
    else none

def opened (toUpperCase : JString → JString) (s : Shell) : Turn → Option Nat
  | .line (some input) network =>
    match interpret toUpperCase input with
    | .error _ => none
    | .ok command => s.fields.opened network command
  | _ => none

end Shell

namespace ClientFields

variable {network : Network} {c : ClientFields}

/-- An exchange asks the server for nothing but the answer to its own request. -/
theorem exchange_congr {answer answer' : Bytes → Reply} {r : Except Uncaught Bytes}
    (received : Option Reply → Ended)
    (h : ∀ bytes, r.toOption = some bytes → answer bytes = answer' bytes) :
    c.exchange { network with server := some answer } r received =
      c.exchange { network with server := some answer' } r received := by
  unfold exchange
  cases r with
  | error e => rfl
  | ok bytes => exact congrArg (fun reply => received (some reply)) (h bytes rfl)

/-- Behind a check, the connection is opened only if the check is passed. -/
theorem ite_congr_sent {P : Prop} [Decidable P] {answer answer' : Bytes → Reply}
    {bytes? : Option Bytes} {stopped ended ended' : Ended}
    (h : ∀ bytes, (if P then none else bytes?) = some bytes → answer bytes = answer' bytes)
    (hended : (∀ bytes, bytes? = some bytes → answer bytes = answer' bytes) → ended = ended') :
    (if P then stopped else ended) = if P then stopped else ended' := by
  by_cases hP : P
  · rw [if_pos hP, if_pos hP]
  · rw [if_neg hP, if_neg hP]
    apply hended
    intro bytes hbytes
    exact h bytes ((if_neg hP).trans hbytes)

/-- And so does a CONNECT. -/
theorem connect_congr {answer answer' : Bytes → Reply} {user : JString}
    (h : ∀ bytes, c.sent network (.connect user) = some bytes → answer bytes = answer' bytes) :
    c.connect { network with server := some answer } user =
      c.connect { network with server := some answer' } user := by
  cases hconnected : c.connected with
  | true =>
    unfold connect
    rw [if_pos hconnected, if_pos hconnected]
  | false =>
    cases hport : network.localPort with
    | none =>
      rw [connect_refused hconnected (Or.inr rfl), connect_refused hconnected (Or.inr rfl)]
    | some serverPort =>
      have hanswer : answer (connectRequest user serverPort) =
          answer' (connectRequest user serverPort) := by
        apply h
        unfold sent
        simp only [hconnected, hport]
        rfl
      rw [connect_eq hconnected rfl rfl user, connect_eq hconnected rfl rfl user, hanswer]

/-- **A method depends on the server by the reply to its request only.** -/
theorem perform_congr {answer answer' : Bytes → Reply} {command : Command}
    (h : ∀ bytes, c.sent network command = some bytes → answer bytes = answer' bytes) :
    c.perform { network with server := some answer } command =
      c.perform { network with server := some answer' } command := by
  cases command with
  | register user => exact exchange_congr _ h
  | unregister user => exact exchange_congr _ h
  | connect user => exact connect_congr h
  | disconnect user =>
    exact ite_congr_sent h fun h => ite_congr_sent h fun h => exchange_congr _ h
  | publish user fileName description => exact exchange_congr _ h
  | delete fileName => exact ite_congr_sent h fun h => exchange_congr _ h
  | listUsers => exact ite_congr_sent h fun h => exchange_congr _ h
  | listContent userName => exact ite_congr_sent h fun h => exchange_congr _ h
  | _ => rfl

end ClientFields

/-- A request with one argument. -/
theorem request_one (type : Commands) (argument : JString) :
    (request type [some argument]).toOption =
      some (parseCommand type ++ parseString argument) := by
  have hrequest := request_some type [argument]
  rw [List.flatMap_singleton] at hrequest
  exact congrArg Except.toOption hrequest

/-! ## Names -/

/-- A user name that the server keeps whole and that a listing brings back. -/
structure UserName extends Argument where
  short : toArgument.utf8.length ≤ maxSize - 1
  survives : Survives toArgument.utf8

namespace UserName

variable (user : UserName)

/-- A user name goes out whole, with its NUL. -/
theorem parseString_jstring : parseString user.jstring = user.utf8 ++ [nul] := by
  have hlen : user.jstring.length ≤ messageSize - 1 :=
    (length_encode_le_utf8 user.chars).trans user.short
  unfold parseString
  rw [if_neg (by omega)]
  unfold getBytes
  rw [Argument.jstring, encode_snoc_nul, Utf16.decode_encode, utf8_snoc_nul]
  rfl

/-- And arrives as it is. -/
theorem serverName_jstring : serverName user.jstring = user.utf8 := by
  have hfield : fieldOf (user.utf8 ++ [nul]) = user.utf8 := by
    unfold fieldOf
    rw [List.takeWhile_append_of_pos]
    · simp [IsTerminator]
    · intro ch hch
      simpa using user.plain_utf8 ch hch
  unfold serverName
  rw [parseString_jstring, hfield, List.take_of_length_le user.short]

/-- The name that comes back. -/
theorem encode_decode : Utf16.encode (Utf8.decode user.utf8) = user.jstring :=
  congrArg Utf16.encode (Utf8.decode_encode user.chars)

end UserName

/-! ## Ports -/

theorem cstring_eq (s : String) : cstring s = utf8 s.toList := by
  unfold cstring utf8
  change s.toByteArray.data.toList = _
  rw [← String.utf8Encode_toList]
  unfold List.utf8Encode
  simp

theorem cstring_port (port : Nat) : cstring (toString port) = utf8 (Nat.toDigits 10 port) := by
  rw [cstring_eq]
  exact congrArg utf8 Nat.toList_repr

theorem isDigit_port {port : Nat} : ∀ c ∈ Nat.toDigits 10 port, c.isDigit :=
  fun _ hc => Nat.isDigit_of_mem_toDigits (by decide) (by decide) hc

theorem isDigit_bounds {c : Char} (h : c.isDigit) : 48 ≤ c.toNat ∧ c.toNat ≤ 57 := by
  simpa [Char.isDigit, UInt32.le_iff_toNat_le] using h

/-- The bytes of digits. -/
theorem mem_utf8_digits {cs : List Char} (h : ∀ c ∈ cs, c.isDigit) :
    ∀ b ∈ utf8 cs, 48 ≤ b.toNat ∧ b.toNat ≤ 57 := by
  intro b hb
  obtain ⟨c, hc, hb⟩ := List.mem_flatMap.1 hb
  obtain ⟨hlo, hhi⟩ := isDigit_bounds (h c hc)
  have hval : c.val.toNat = c.toNat := rfl
  unfold String.utf8EncodeChar at hb
  rw [hval] at hb
  dsimp only at hb
  rw [if_pos (by omega), List.mem_singleton] at hb
  rw [hb, Utf8.toNat_ofNat_byte (by omega)]
  exact ⟨hlo, hhi⟩

/-- A port as the server stores it. -/
def portText (port : Nat) : Bytes := utf8 (Nat.toDigits 10 port)

/-- The digits and the period are no terminators, and no blanks. -/
theorem plain_of_bounds {s : Bytes} (h : ∀ b ∈ s, 46 ≤ b.toNat ∧ b.toNat ≤ 57) : Plain s := by
  intro b hb hends
  have hbounds := h b hb
  rcases hends with rfl | rfl
  · exact absurd hbounds (by decide)
  · exact absurd hbounds (by decide)

/-- A text of digits and periods comes back from a listing. -/
theorem survives_of_bounds {s : Bytes} (h : ∀ b ∈ s, 46 ≤ b.toNat ∧ b.toNat ≤ 57) :
    Survives s := by
  refine ⟨fun hreturn => absurd (h _ hreturn) (by decide), fun b hb => ?_, fun b hb => ?_⟩
  · have hb := h b (List.mem_of_mem_head? hb)
    omega
  · have hb := h b (List.mem_of_getLast? hb)
    omega

theorem portText_bytes (port : Nat) : ∀ b ∈ portText port, 46 ≤ b.toNat ∧ b.toNat ≤ 57 := by
  intro b hb
  have hbounds := mem_utf8_digits isDigit_port b hb
  omega

theorem length_utf8_digits {cs : List Char} (h : ∀ c ∈ cs, c.isDigit) :
    (utf8 cs).length = cs.length := by
  induction cs with
  | nil => rfl
  | cons c cs ih =>
    obtain ⟨hc, hcs⟩ := List.forall_mem_cons.1 h
    have hhi := (isDigit_bounds hc).2
    have hone : (String.utf8EncodeChar c).length = 1 := by
      have hval : c.val.toNat = c.toNat := rfl
      unfold String.utf8EncodeChar
      rw [hval]
      dsimp only
      rw [if_pos (by omega)]
      rfl
    have ih := ih hcs
    unfold utf8 at ih ⊢
    rw [List.flatMap_cons, List.length_append, hone, ih, List.length_cons]
    omega

/-- A port has at most five digits, so that the server's buffer takes it whole. -/
theorem length_portText {port : Nat} (h : port ≤ 0xFFFF) : (portText port).length ≤ 5 := by
  unfold portText
  rw [length_utf8_digits isDigit_port, Nat.length_toDigits_le_iff (by decide) (by decide)]
  omega

theorem digit_ascii {c : Char} (h : c.isDigit) : digit c = some (c.toNat - '0'.toNat) := by
  obtain ⟨hlo, hhi⟩ := isDigit_bounds h
  unfold digit digitZeros
  rw [List.findSome?_cons, if_pos (by omega)]
  rfl

theorem mapM_digit {cs : List Char} (h : ∀ c ∈ cs, c.isDigit) :
    cs.mapM digit = some (cs.map fun c => c.toNat - '0'.toNat) := by
  induction cs with
  | nil => rfl
  | cons c cs ih =>
    obtain ⟨hc, hcs⟩ := List.forall_mem_cons.1 h
    rw [List.mapM_cons, digit_ascii hc, ih hcs]
    rfl

/-- Digits have no sign. -/
theorem signed_digits {cs : List Char} (h : ∀ c ∈ cs, c.isDigit) : signed cs = (false, cs) := by
  unfold signed
  split
  · exact absurd (h '-' List.mem_cons_self) (by decide)
  · exact absurd (h '+' List.mem_cons_self) (by decide)
  · rfl

theorem foldl_digits (cs : List Char) :
    (cs.map fun c => c.toNat - '0'.toNat).foldl (fun n value => n * 10 + value) 0 =
      Nat.ofDigitChars 10 cs 0 := by
  have hstep : (fun (n : Nat) (c : Char) => n * 10 + (c.toNat - '0'.toNat)) =
      fun n c => 10 * n + (c.toNat - '0'.toNat) := by
    funext n c
    rw [Nat.mul_comm]
  rw [List.foldl_map, Nat.ofDigitChars_eq_foldl, hstep]

/-- A number with its sign, if it is an `int`. -/
def intOf (negative : Bool) (n : Nat) : Option Int :=
  let result : Int := if negative then -(n : Int) else n
  if -2 ^ 31 ≤ result ∧ result < 2 ^ 31 then some result else none

theorem intOf_natCast {n : Nat} (h : n < 2 ^ 31) : intOf false n = some (n : Int) := by
  have hrange : -2 ^ 31 ≤ (n : Int) ∧ (n : Int) < 2 ^ 31 := by omega
  have hresult : (if false = true then -(n : Int) else n) = n := if_neg Bool.false_ne_true
  unfold intOf
  rw [hresult]
  exact if_pos hrange

/-- `Integer.parseInt` is a sign, digits, and their value if it is an `int`. -/
theorem parseInt_eq (s : List Char) :
    parseInt s =
      if (signed s).2 = [] then none
      else ((signed s).2.mapM digit).bind fun values =>
        intOf (signed s).1 (values.foldl (fun n value => n * 10 + value) 0) := rfl

/-- `parseInt` takes back what `toString` has written. -/
theorem parseInt_toDigits {port : Nat} (h : port < 2 ^ 31) :
    parseInt (Nat.toDigits 10 port) = some (port : Int) := by
  have hvalue := (foldl_digits (Nat.toDigits 10 port)).trans Nat.ofDigitChars_ten_toDigits
  rw [parseInt_eq, signed_digits isDigit_port]
  dsimp only
  rw [if_neg Nat.toDigits_ne_nil, mapM_digit isDigit_port, Option.bind_some, hvalue,
    intOf_natCast h]

/-- The port of a record leads back to the port. -/
theorem portOf_portText {port : Nat} (h : port ≤ 0xFFFF) (ip : List Char) :
    portOf ⟨ip, Utf8.decode (portText port)⟩ = .ok port := by
  have hdecode : Utf8.decode (portText port) = Nat.toDigits 10 port := Utf8.decode_encode _
  unfold portOf
  rw [hdecode, parseInt_toDigits (by omega)]
  dsimp only
  rw [if_pos ⟨by omega, by omega⟩, Int.toNat_natCast]

/-! ## What the server does -/

section Server

variable (x : Conditions) (s : Store)

/-- A CONNECT arrives as it was meant. -/
theorem exchange_connectRequest (user : UserName) {port : Nat} (h : port ≤ 0xFFFF) :
    x.exchange (ClientFields.connectRequest user.jstring port) s =
      (some (connectUser.act x.calls x.address (serverName user.jstring) (portText port) s).1,
        (connectUser.act x.calls x.address (serverName user.jstring) (portText port) s).2) := by
  have hlen := length_portText h
  have hbytes : ClientFields.connectRequest user.jstring port = utf8 Commands.connect.name ++
      nul :: (user.utf8 ++ nul :: (portText port ++ nul :: [])) := by
    unfold ClientFields.connectRequest
    rw [parseCommand_eq, user.parseString_jstring, cstring_port]
    simp [portText]
  refine exchange_of_operation
    (r := .connect (Line.of (serverName user.jstring)) (Line.of (portText port))) ?_
  rw [hbytes, Arrived.of_field (plain_name _) (Or.inr rfl),
    Arrived.of_field user.plain_utf8 (Or.inr rfl),
    Arrived.of_field (plain_of_bounds (portText_bytes port)) (Or.inr rfl), user.serverName_jstring]
  have hname : user.utf8.take (maxSize - 1) = user.utf8 := List.take_of_length_le user.short
  have hport : (portText port).take (portSize - 1) = portText port :=
    List.take_of_length_le (hlen.trans (by decide))
  simp only [operationOf, Arrived.next, Arrived.rest, take_name, hname, hport]
  rfl

/-- The commands that the list of connected users does not change for. -/
def Commands.keeps : Commands → Bool
  | .unregister | .connect | .disconnect => false
  | _ => true

/-- REGISTER, PUBLISH and DELETE leave the list as it is. -/
theorem connected_serve_keeps (address : Option Bytes) :
    (∀ u, (serve x.calls address (.register u) s).2.connected = s.connected) ∧
      (∀ u f d, (serve x.calls address (.publish u f d) s).2.connected = s.connected) ∧
      ∀ u f, (serve x.calls address (.delete u f) s).2.connected = s.connected := by
  refine ⟨fun u => ?_, fun u f d => ?_, fun u f => ?_⟩
  · dsimp only [serve]
    rcases registerUser.act_cases x.calls s u.text with ⟨t, -, -, heq⟩ | ⟨-, -, heq⟩ <;> rw [heq]
  · dsimp only [serve]
    rcases publishFile.act_cases x.calls s u f d with
      ⟨t, fd, t', -, -, -, heq⟩ | ⟨t, fd, -, -, -, heq⟩ | ⟨-, -, heq⟩ <;> rw [heq]
  · dsimp only [serve]
    rcases deleteFile.act_cases x.calls s u f with ⟨t, -, -, heq⟩ | ⟨-, -, heq⟩ <;> rw [heq]

/-- And so do the bytes of their requests. -/
theorem connected_exchange_keeps {type : Commands} (h : type.keeps = true) (user : JString)
    (more : Bytes) :
    (x.exchange (parseCommand type ++ parseString user ++ more) s).2.connected = s.connected := by
  obtain ⟨rest, harrived⟩ := arrived_request type user more
  obtain ⟨hcommand, -, -⟩ := harrived x.locals.message
  obtain ⟨hregister, hpublish, hdelete⟩ := connected_serve_keeps x s x.address
  have hother : ∀ op, operationOf x.locals
      (.of (parseCommand type ++ parseString user ++ more)) = op → (∀ r, op ≠ some (.change r)) →
      (x.exchange (parseCommand type ++ parseString user ++ more) s).2.connected =
        s.connected := by
    rintro op rfl hne
    rw [exchange_other hne]
  cases type with
  | unregister => cases h
  | connect => cases h
  | disconnect => cases h
  | register =>
    rw [exchange_of_operation (by simp only [operationOf, hcommand]; rfl)]
    exact hregister _
  | publish =>
    rw [exchange_of_operation (by simp only [operationOf, hcommand]; rfl)]
    exact hpublish _ _ _
  | delete =>
    rw [exchange_of_operation (by simp only [operationOf, hcommand]; rfl)]
    exact hdelete _ _
  | listUsers =>
    apply hother _ (by simp only [operationOf, hcommand]; rfl)
    intro r hr
    cases hr
  | listContent =>
    apply hother _ (by simp only [operationOf, hcommand]; rfl)
    intro r hr
    cases hr
  | getFile =>
    apply hother _ (by simp only [operationOf, hcommand]; rfl)
    intro r hr
    cases hr

/-- What the other commands write is for the server to keep its list. -/
theorem keeps_of_sent {network : Network} {c : ClientFields} {command : Command} {bytes : Bytes}
    (hsent : c.sent network command = some bytes)
    (hconnect : ∀ user, command ≠ .connect user)
    (hdisconnect : ∀ user, command ≠ .disconnect user)
    (hunregister : ∀ user, command ≠ .unregister user) :
    (x.exchange bytes s).2.connected = s.connected := by
  have hnamed : ∀ (type : Commands) (user : Option JString) (arguments : List JString),
      type.keeps = true →
      (request type (user :: arguments.map some)).toOption = some bytes →
      (x.exchange bytes s).2.connected = s.connected := by
    intro type user arguments htype hrequest
    cases user with
    | none => cases hrequest
    | some user =>
      rw [← List.map_cons, request_some] at hrequest
      obtain rfl := Option.some.inj hrequest
      rw [List.flatMap_cons, ← List.append_assoc]
      exact connected_exchange_keeps x s htype user _
  have hchecked : ∀ {P : Prop} [Decidable P] {bytes? : Option Bytes},
      (if P then none else bytes?) = some bytes → bytes? = some bytes := by
    intro P _ bytes? h
    split at h
    · cases h
    · exact h
  cases command with
  | connect user => exact absurd rfl (hconnect user)
  | disconnect user => exact absurd rfl (hdisconnect user)
  | unregister user => exact absurd rfl (hunregister user)
  | register user => exact hnamed .register _ [] rfl hsent
  | publish user fileName description =>
    exact hnamed .publish _ [fileName, network.toUppercase description] rfl hsent
  | delete fileName => exact hnamed .delete _ [fileName] rfl (hchecked hsent)
  | listUsers => exact hnamed .listUsers _ [] rfl (hchecked hsent)
  | listContent userName => exact hnamed .listContent _ [userName] rfl (hchecked hsent)
  | _ => cases hsent

/-- The reply to a LIST_USERS. -/
theorem answers_listUsers (user : JString) :
    x.answers s (parseCommand .listUsers ++ parseString user) =
      ⟨listUsers.act x.allocated s, false⟩ := by
  obtain ⟨rest, harrived⟩ := arrived_request .listUsers user []
  obtain ⟨hcommand, -, -⟩ := harrived x.locals.message
  rw [List.append_nil] at hcommand
  have hop : operationOf x.locals (.of (parseCommand .listUsers ++ parseString user)) =
      some (.listUsers (((Arrived.of (parseCommand .listUsers ++ parseString user)).rest).next
        x.locals.userName)) := by
    simp only [operationOf, hcommand]
    rfl
  have hprocess := processRequest_arrived x.calls x.allocated x.locals x.address s
    (.of (parseCommand .listUsers ++ parseString user))
  rw [Arrived.bytes_of, hop] at hprocess
  unfold Conditions.answers
  rw [hprocess]
  rfl

end Server

end DistributedSystems.Lab
