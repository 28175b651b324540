import DistributedSystems.Lab.ClientJava.Streams

/-!
# Listing the users (`list_users` of `clientjava/client.java`)

The server ends each field with a NUL and a line feed; the client reads lines, which a carriage
return ends too, and trims them. `listUsers_round_trip_iff` says for which records the client gets
what the server stored and leaves nothing of the reply.
-/

namespace DistributedSystems.Lab

open Fs Support TextLines

/-- A user as the client prints it. -/
structure ListedUser where
  name : List Char
  ip : List Char
  port : List Char
deriving DecidableEq, Repr

namespace Client

/-- `readLine().trim()`. At the end of the stream `readLine` gives null, which has no `trim`. -/
def readField (text : List Char) : Option (List Char × List Char) :=
  (TextLines.readLine text).map fun r => (trim r.1, r.2)

/-- The loop over the received users: three lines for each. -/
def readUsers : Nat → List Char → Option (List ListedUser × List Char)
  | 0, text => some ([], text)
  | n + 1, text => do
    let (name, text) ← readField text
    let (ip, text) ← readField text
    let (port, text) ← readField text
    let (users, text) ← readUsers n text
    return (⟨name, ip, port⟩ :: users, text)

/-- How `list_users` ends: with LIST_USERS FAIL, without a word, by a null pointer, or with the
users it has put in its table and the text it has not read. -/
inductive ListUsers
  | fail
  | unknown
  | nullPointer
  | ok (users : List ListedUser) (rest : List Char)
deriving DecidableEq, Repr

/-- `list_users`, by the bytes of the reply. -/
def listUsers (reply : Bytes) : ListUsers :=
  match readInt reply with
  | none => .fail
  | some (output, rest) =>
    if output = 3 then .fail
    else if output = 0 then
      match readInt rest with
      | none => .fail
      | some (numberUsers, rest) =>
        match readUsers numberUsers.toNat (Utf8.decode rest) with
        | none => .nullPointer
        | some (users, text) => .ok users text
    else .unknown

end Client

/-- A stored record, decoded. -/
def UserServerData.decoded (u : UserServerData) : ListedUser where
  name := Utf8.decode u.name
  ip := Utf8.decode u.ipAddress
  port := Utf8.decode u.port

def carriageReturn : UInt8 := 13

/-- Neither is a field split at the client nor does it lose anything to `trim`. -/
def Survives (field : Bytes) : Prop :=
  carriageReturn ∉ field ∧ (∀ b ∈ field.head?, 0x20 < b.toNat) ∧
    ∀ b ∈ field.getLast?, 0x20 < b.toNat

instance : DecidablePred Survives := fun field =>
  decidable_of_iff (carriageReturn ∉ field ∧ field.head?.all (0x20 < ·.toNat) ∧
      field.getLast?.all (0x20 < ·.toNat))
    (by simp only [Survives, Option.mem_def, Option.all_eq_true, decide_eq_true_eq])

/-! ## The text of a reply -/

/-- A field as it arrives. -/
def fieldText (field : Bytes) : List Char := Utf8.decode field ++ ['\x00', '\n']

/-- A user as it arrives. -/
def userText (u : UserServerData) : List Char :=
  fieldText u.name ++ (fieldText u.ipAddress ++ fieldText u.port)

theorem userText_append (u : UserServerData) (rest : List Char) : userText u ++ rest =
    fieldText u.name ++ (fieldText u.ipAddress ++ (fieldText u.port ++ rest)) := by
  unfold userText
  rw [List.append_assoc, List.append_assoc]

theorem decode_sendField (field rest : Bytes) :
    Utf8.decode (sendField field ++ rest) = fieldText field ++ Utf8.decode rest := by
  unfold sendField writeLine fieldText
  simp only [List.append_assoc, List.cons_append, List.nil_append]
  rw [Utf8.decode_append_ascii field (b := nul) (by decide)]
  have hfeed := Utf8.decode_append_ascii [] (b := newline) (by decide) rest
  rw [List.nil_append] at hfeed
  rw [hfeed]
  rfl

theorem decode_users (users : List UserServerData) :
    Utf8.decode (users.flatMap sendUser) = users.flatMap userText := by
  induction users with
  | nil => rfl
  | cons u users ih =>
    rw [List.flatMap_cons, List.flatMap_cons, ← ih, userText_append]
    unfold sendUser
    simp only [List.append_assoc, decode_sendField]

/-! ## One field -/

/-- The character of a byte that stands for itself is in the text exactly if the byte is. -/
theorem return_mem_decode {field : Bytes} : '\r' ∈ Utf8.decode field ↔ carriageReturn ∈ field :=
  Utf8.mem_decode_iff (b := carriageReturn) (by decide)

theorem feed_notMem_decode {field : Bytes} (h : Plain field) : '\n' ∉ Utf8.decode field := by
  intro hmem
  exact h newline ((Utf8.mem_decode_iff (b := newline) (by decide)).1 hmem) (Or.inl rfl)

theorem blank_iff {c : Char} {b : UInt8}
    (h : b.toNat < 0x80 ∧ c.toNat = b.toNat ∨ ¬ b.toNat < 0x80 ∧ 0x80 ≤ c.toNat) :
    ¬ blank c ↔ 0x20 < b.toNat := by
  unfold blank
  rw [decide_eq_true_eq]
  omega

/-- The text can be trimmed exactly where the bytes can. -/
theorem trimmed_decode {field : Bytes} : Trimmed (Utf8.decode field) ↔
    (∀ b ∈ field.head?, 0x20 < b.toNat) ∧ ∀ b ∈ field.getLast?, 0x20 < b.toNat := by
  have hhead : (∀ c ∈ (Utf8.decode field).head?, ¬ blank c) ↔
      ∀ b ∈ field.head?, 0x20 < b.toNat := by
    cases field with
    | nil => exact ⟨fun _ b hb => (by cases hb), fun _ c hc => (by cases hc)⟩
    | cons b field =>
      obtain ⟨c, cs, hdecode, hc⟩ := Utf8.head?_decode b field
      rw [hdecode]
      simpa using blank_iff hc
  have hlast : (∀ c ∈ (Utf8.decode field).getLast?, ¬ blank c) ↔
      ∀ b ∈ field.getLast?, 0x20 < b.toNat := by
    rcases List.eq_nil_or_concat field with rfl | ⟨field, b, rfl⟩
    · exact ⟨fun _ b hb => (by cases hb), fun _ c hc => (by cases hc)⟩
    · obtain ⟨cs, c, hdecode, hc⟩ := Utf8.getLast?_decode field b
      rw [List.concat_eq_append, hdecode]
      simpa using blank_iff hc
  exact and_congr hhead hlast

/-- What the client makes of the text of a field that no carriage return splits. -/
theorem trim_field_iff {field : Bytes} :
    trim (Utf8.decode field ++ ['\x00']) = Utf8.decode field ↔ Trimmed (Utf8.decode field) := by
  constructor
  · intro h
    rw [← h]
    exact trimmed_trim _
  · intro h
    exact trim_snoc h (by decide)

theorem survives_iff {field : Bytes} : Survives field ↔
    '\r' ∉ Utf8.decode field ∧ trim (Utf8.decode field ++ ['\x00']) = Utf8.decode field := by
  rw [trim_field_iff, trimmed_decode, return_mem_decode]
  rfl

/-- A field that is not split. -/
theorem readField_fieldText {field : Bytes} (h : Plain field) (hr : '\r' ∉ Utf8.decode field)
    (rest : List Char) :
    Client.readField (fieldText field ++ rest) =
      some (trim (Utf8.decode field ++ ['\x00']), rest) := by
  have hline : ∀ c ∈ Utf8.decode field ++ ['\x00'], ¬ IsBreak c := by
    intro c hc hbreak
    rcases List.mem_append.1 hc with hc | hc
    · rcases hbreak with rfl | rfl
      · exact feed_notMem_decode h hc
      · exact hr hc
    · rw [List.mem_singleton.1 hc] at hbreak
      exact absurd hbreak (by decide)
  have hread : TextLines.readLine (fieldText field ++ rest) =
      some (Utf8.decode field ++ ['\x00'], rest) := by
    have htext : fieldText field ++ rest = (Utf8.decode field ++ ['\x00']) ++ '\n' :: rest := by
      simp [fieldText]
    unfold TextLines.readLine
    rw [htext, if_neg (by simp), cut_append_feed hline]
  unfold Client.readField
  rw [hread]
  rfl

/-! ## All users -/

/-- The fields of the record hold no terminator. -/
def UserServerData.Plain (u : UserServerData) : Prop :=
  Lab.Plain u.name ∧ Lab.Plain u.ipAddress ∧ Lab.Plain u.port

instance : DecidablePred UserServerData.Plain := fun u =>
  inferInstanceAs (Decidable (Lab.Plain u.name ∧ Lab.Plain u.ipAddress ∧ Lab.Plain u.port))

/-- Every field of the record survives. -/
def UserServerData.Survives (u : UserServerData) : Prop :=
  Lab.Survives u.name ∧ Lab.Survives u.ipAddress ∧ Lab.Survives u.port

instance : DecidablePred UserServerData.Survives := fun u =>
  inferInstanceAs (Decidable (Lab.Survives u.name ∧ Lab.Survives u.ipAddress ∧
    Lab.Survives u.port))

/-- No field of the record holds a carriage return. -/
def Unsplit (u : UserServerData) : Prop :=
  '\r' ∉ Utf8.decode u.name ∧ '\r' ∉ Utf8.decode u.ipAddress ∧ '\r' ∉ Utf8.decode u.port

/-- A record as it arrives when no field is split. -/
def arrived (u : UserServerData) : ListedUser where
  name := trim (Utf8.decode u.name ++ ['\x00'])
  ip := trim (Utf8.decode u.ipAddress ++ ['\x00'])
  port := trim (Utf8.decode u.port ++ ['\x00'])

theorem survives_iff_arrived {u : UserServerData} :
    u.Survives ↔ Unsplit u ∧ arrived u = u.decoded := by
  unfold UserServerData.Survives Unsplit arrived UserServerData.decoded
  rw [survives_iff, survives_iff, survives_iff, ListedUser.mk.injEq]
  tauto

theorem readUsers_unsplit {users : List UserServerData} (hplain : ∀ u ∈ users, u.Plain)
    (h : ∀ u ∈ users, Unsplit u) :
    Client.readUsers users.length (users.flatMap userText) = some (users.map arrived, []) := by
  induction users with
  | nil => rfl
  | cons u users ih =>
    obtain ⟨⟨hn, hi, hp⟩, hplain⟩ := List.forall_mem_cons.1 hplain
    obtain ⟨⟨hn', hi', hp'⟩, h⟩ := List.forall_mem_cons.1 h
    rw [List.length_cons, List.flatMap_cons, userText_append]
    unfold Client.readUsers
    simp only [readField_fieldText hn hn', readField_fieldText hi hi', readField_fieldText hp hp',
      ih hplain h, Option.bind_eq_bind, Option.bind_some]
    rfl

/-! ### Line ends -/

/-- A field takes at most one line end. -/
theorem countP_readField {text rest : List Char} {field : List Char} (hpair : NoPair text)
    (h : Client.readField text = some (field, rest)) :
    NoPair rest ∧ text.countP (IsBreak ·) ≤ rest.countP (IsBreak ·) + 1 := by
  unfold Client.readField TextLines.readLine at h
  split at h
  · cases h
  · obtain ⟨-, rfl⟩ := Prod.mk.inj (Option.some.inj h)
    exact ⟨hpair.of_suffix (cut_suffix text), countP_cut hpair⟩

theorem countP_readUsers {n : Nat} {text rest : List Char} {users : List ListedUser}
    (hpair : NoPair text) (h : Client.readUsers n text = some (users, rest)) :
    users.length = n ∧ text.countP (IsBreak ·) ≤ rest.countP (IsBreak ·) + 3 * n := by
  induction n generalizing text users with
  | zero =>
    obtain ⟨rfl, rfl⟩ := Prod.mk.inj (Option.some.inj h)
    exact ⟨rfl, Nat.le_refl _⟩
  | succ n ih =>
    unfold Client.readUsers at h
    simp only [Option.bind_eq_bind, Option.bind_eq_some_iff] at h
    obtain ⟨⟨name, t₁⟩, h1, ⟨ip, t₂⟩, h2, ⟨port, t₃⟩, h3, ⟨users', t₄⟩, h4, hr⟩ := h
    obtain ⟨rfl, rfl⟩ := Prod.mk.inj (Option.some.inj hr)
    obtain ⟨hp1, hc1⟩ := countP_readField hpair h1
    obtain ⟨hp2, hc2⟩ := countP_readField hp1 h2
    obtain ⟨hp3, hc3⟩ := countP_readField hp2 h3
    obtain ⟨hlen, hc4⟩ := ih hp3 h4
    refine ⟨by rw [List.length_cons, hlen], ?_⟩
    omega

theorem noPair_append_feed {line : List Char} (hline : '\n' ∉ line) {rest : List Char}
    (hrest : NoPair rest) : NoPair (line ++ '\x00' :: '\n' :: rest) := by
  have hcons : ∀ c text, NoPair text → ¬ (c = '\r' ∧ text.head? = some '\n') →
      NoPair (c :: text) := by
    intro c text htext hc hin
    rcases List.infix_cons_iff.1 hin with hpre | hin
    · obtain ⟨tail, htail⟩ := hpre
      obtain ⟨rfl, rfl⟩ := List.cons.inj htail
      exact hc ⟨rfl, rfl⟩
    · exact htext hin
  induction line with
  | nil => exact hcons _ _ (hcons _ _ hrest (by simp)) (by simp)
  | cons c line ih =>
    obtain ⟨hc, hline⟩ := not_or.1 (mt List.mem_cons.2 hline)
    refine hcons _ _ (ih hline) fun h => ?_
    cases line with
    | nil => cases h.2
    | cons d line => exact hline (by simp [Option.some.inj h.2])

theorem noPair_fieldText {field : Bytes} (h : Plain field) {rest : List Char}
    (hrest : NoPair rest) : NoPair (fieldText field ++ rest) := by
  unfold fieldText
  rw [List.append_assoc]
  exact noPair_append_feed (feed_notMem_decode h) hrest

theorem noPair_users {users : List UserServerData} (h : ∀ u ∈ users, u.Plain) :
    NoPair (users.flatMap userText) := by
  induction users with
  | nil => exact fun hin => absurd hin.length_le (by simp)
  | cons u users ih =>
    obtain ⟨⟨hn, hi, hp⟩, h⟩ := List.forall_mem_cons.1 h
    rw [List.flatMap_cons, userText_append]
    exact noPair_fieldText hn (noPair_fieldText hi (noPair_fieldText hp (ih h)))

/-- Every field brings its own line end, and one for each carriage return. -/
theorem countP_fieldText (field : Bytes) : (fieldText field).countP (IsBreak ·) =
    (Utf8.decode field).countP (IsBreak ·) + 1 := by
  unfold fieldText
  rw [List.countP_append]
  rfl

theorem return_notMem_of_countP {text : List Char} (h : text.countP (IsBreak ·) = 0) :
    '\r' ∉ text := by
  intro hmem
  have hno := List.countP_eq_zero.1 h _ hmem
  exact hno (by decide)

theorem countP_users (users : List UserServerData) :
    3 * users.length ≤ (users.flatMap userText).countP (IsBreak ·) ∧
      ((users.flatMap userText).countP (IsBreak ·) ≤ 3 * users.length →
        ∀ u ∈ users, Unsplit u) := by
  induction users with
  | nil => exact ⟨Nat.le_refl _, fun _ u hu => by cases hu⟩
  | cons u users ih =>
    obtain ⟨hle, hunsplit⟩ := ih
    rw [List.flatMap_cons, List.countP_append, List.length_cons]
    have hu : (userText u).countP (IsBreak ·) = (Utf8.decode u.name).countP (IsBreak ·) +
        (Utf8.decode u.ipAddress).countP (IsBreak ·) +
          (Utf8.decode u.port).countP (IsBreak ·) + 3 := by
      unfold userText
      rw [List.countP_append, List.countP_append, countP_fieldText, countP_fieldText,
        countP_fieldText]
      omega
    refine ⟨by omega, fun hge => List.forall_mem_cons.2 ⟨⟨?_, ?_, ?_⟩, hunsplit (by omega)⟩⟩
    · exact return_notMem_of_countP (by omega)
    · exact return_notMem_of_countP (by omega)
    · exact return_notMem_of_countP (by omega)

/-! ## The round trip -/

theorem Client.listUsers_success {reply rest text : Bytes} {n : Int}
    (houtput : readInt reply = some (0, rest)) (hnumber : readInt rest = some (n, text)) :
    Client.listUsers reply =
      match Client.readUsers n.toNat (Utf8.decode text) with
      | none => .nullPointer
      | some (users, text) => .ok users text := by
  unfold Client.listUsers
  simp only [houtput, hnumber]
  rfl

/-- What `list_users` makes of the reply. -/
theorem listUsers_act (s : Store) : Client.listUsers (listUsers.act true s) =
    match Client.readUsers (asInt s.connected.length).toNat (s.connected.flatMap userText) with
    | none => .nullPointer
    | some (users, text) => .ok users text := by
  have hreply : listUsers.act true s =
      htonl success ++ (htonl s.connected.length ++ s.connected.flatMap sendUser) := by
    unfold listUsers.act listGetSize getElements
    rw [if_pos rfl, List.take_length, List.append_assoc]
  have hsuccess : asInt success = 0 := asInt_eq (by unfold success; omega)
  have houtput := readInt_htonl success (htonl s.connected.length ++ s.connected.flatMap sendUser)
  rw [hsuccess] at houtput
  rw [hreply, Client.listUsers_success houtput (readInt_htonl _ _), decode_users]

/-- **LIST_USERS round trip**: the client gets the stored records and consumes the whole reply
exactly when every field survives, and the number of users is an `int`. -/
theorem listUsers_round_trip_iff {s : Store} (hplain : ∀ u ∈ s.connected, u.Plain) :
    Client.listUsers (listUsers.act true s) =
        .ok (s.connected.map UserServerData.decoded) [] ↔
      (∀ u ∈ s.connected, u.Survives) ∧ s.connected.length < 2 ^ 31 := by
  rw [listUsers_act]
  constructor
  · intro h
    -- the client has read as many users as the server has sent, and not one line end is left
    have hread : Client.readUsers (asInt s.connected.length).toNat
        (s.connected.flatMap userText) = some (s.connected.map UserServerData.decoded, []) := by
      cases hr : Client.readUsers (asInt s.connected.length).toNat
          (s.connected.flatMap userText) with
      | none =>
        rw [hr] at h
        exact Client.ListUsers.noConfusion h
      | some r =>
        rw [hr] at h
        obtain ⟨husers, htext⟩ := Client.ListUsers.ok.inj h
        rw [← husers, ← htext]
    obtain ⟨hlen, hcount⟩ := countP_readUsers (noPair_users hplain) hread
    rw [List.length_map] at hlen
    have hlt : s.connected.length < 2 ^ 31 := lt_of_asInt hlen
    have hunsplit : ∀ u ∈ s.connected, Unsplit u := by
      apply (countP_users s.connected).2
      rw [hlen]
      simpa using hcount
    rw [← hlen, readUsers_unsplit hplain hunsplit] at hread
    obtain ⟨harrived, -⟩ := Prod.mk.inj (Option.some.inj hread)
    have hall : ∀ u ∈ s.connected, arrived u = u.decoded := List.map_inj_left.1 harrived
    exact ⟨fun u hu => survives_iff_arrived.2 ⟨hunsplit u hu, hall u hu⟩, hlt⟩
  · rintro ⟨hsurvives, hlt⟩
    have hint : (asInt s.connected.length).toNat = s.connected.length := by
      rw [asInt_eq (by omega), Int.toNat_natCast]
    have hall : ∀ u ∈ s.connected, Unsplit u ∧ arrived u = u.decoded := by
      intro u hu
      exact survives_iff_arrived.1 (hsurvives u hu)
    have harrived : s.connected.map arrived = s.connected.map UserServerData.decoded :=
      List.map_congr_left fun u hu => (hall u hu).2
    rw [hint, readUsers_unsplit hplain fun u hu => (hall u hu).1, harrived]

/-- A store with one connected user. -/
def oneConnected (name : Bytes) : Store where
  tree := .empty
  connected := [⟨name, cstring "4001", cstring "::1"⟩]

theorem alice_round_trip : ((∀ u ∈ (oneConnected (cstring "alice")).connected, u.Plain) ∧
      (∀ u ∈ (oneConnected (cstring "alice")).connected, u.Survives)) ∧
    Client.listUsers (listUsers.act true (oneConnected (cstring "alice"))) =
      .ok [⟨"alice".toList, "::1".toList, "4001".toList⟩] [] := by
  have hplain : ∀ u ∈ (oneConnected (cstring "alice")).connected, u.Plain := by decide
  have hsurvives : ∀ u ∈ (oneConnected (cstring "alice")).connected, u.Survives := by decide
  exact ⟨⟨hplain, hsurvives⟩, (listUsers_round_trip_iff hplain).2 ⟨hsurvives, by decide⟩⟩

/-- A name with a carriage return takes two lines, and shifts the fields that follow. -/
theorem return_shifts_fields : (∀ u ∈ (oneConnected (cstring "al\rice")).connected, u.Plain) ∧
    Client.listUsers (listUsers.act true (oneConnected (cstring "al\rice"))) =
      .ok [⟨"al".toList, "ice".toList, "::1".toList⟩] "4001\x00\n".toList ∧
    Client.listUsers (listUsers.act true (oneConnected (cstring "al\rice"))) ≠
      .ok ((oneConnected (cstring "al\rice")).connected.map UserServerData.decoded) [] := by
  have hread : Client.listUsers (listUsers.act true (oneConnected (cstring "al\rice"))) =
      .ok [⟨"al".toList, "ice".toList, "::1".toList⟩] "4001\x00\n".toList := by decide
  refine ⟨by decide, hread, ?_⟩
  rw [hread]
  decide

end DistributedSystems.Lab
