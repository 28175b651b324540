import DistributedSystems.Exercise2.Session

/-!
# What an echo session agrees on

The client ends the session with the line EXIT, the server with any piece of a line that starts
EXIT. A session agrees as long as no `recv` gives the server such a piece of another line, and not
any longer (`agreement_iff`).
-/

namespace DistributedSystems.Exercise2

open Support Fs Lab

theorem Line.nul_notMem (line : Line) : nul ∉ line.text := line.plain.nul_notMem

def exitLine : Line := ⟨exitWord, by decide, by decide, by decide⟩

/-- The line that is under way at the client, or that ended its loop. -/
def Client.line (c : Client) : Option Bytes :=
  if c.stage = .reading then none else some c.message.text

/-- Bytes in `send_msg`. -/
def Client.left (c : Client) : Bytes :=
  match c.stage with
  | .sending left => left
  | _ => []

/-- Bytes in `message_rec`. -/
def Client.got (c : Client) : Bytes :=
  match c.stage with
  | .receiving got => got
  | _ => []

/-- Bytes in `send_msg`. -/
def Server.left (v : Server) : Bytes :=
  match v.stage with
  | .sending left => left
  | _ => []

/-! ## What the steps do -/

section Steps

variable {c : Client} {v : Server} {line : Line} {left rest segment : Bytes}

/-- A string with its NUL at the front of a buffer. -/
theorem bytes_fill {size : Nat} {b : Buffer size} {s : Bytes} {h : s.length < size} :
    (b.fill s h).bytes = s ++ nul :: b.bytes.drop (s.length + 1) := by
  simp [Buffer.fill, overwrite]

/-- The text is what comes before the first NUL. -/
theorem text_of_bytes {size : Nat} {b : Buffer size} {s : Bytes} (hs : nul ∉ s)
    (h : b.bytes = s ++ nul :: rest) : b.text = s := by
  have hne : ∀ ch ∈ s, decide (ch ≠ nul) = true := by
    intro ch hch
    simpa using fun he : ch = nul => hs (he ▸ hch)
  unfold Buffer.text
  rw [h, List.takeWhile_append_of_pos hne]
  simp

/-- A typed line is put into the buffer and is what there is to send. -/
theorem Client.readLine_eq (c : Client) (line : Line) :
    c.readLine line =
      ⟨.sending line.text, c.message.fill line.text line.fits, line.text.length⟩ := by
  have hmin : min line.text.length (bufferSize - 1) = line.text.length :=
    Nat.min_eq_left (Nat.le_sub_one_of_lt line.fits)
  have htake : line.text.take (bufferSize - 1) = line.text :=
    List.take_of_length_le (Nat.le_sub_one_of_lt line.fits)
  have hread := readLine_terminated (n := bufferSize) (by decide) (Nat.le_refl _) line.plain
    (Or.inl rfl : IsTerminator newline) c.message []
  simp only [hmin, htake] at hread
  unfold Client.readLine
  simp only [hread]
  rw [if_neg (by simp), Int.toNat_natCast, bytes_fill, List.take_left' rfl]

theorem Client.wrote_of_ne (c : Client) (h : left ≠ []) :
    c.wrote left = { c with stage := .sending left } := if_pos h

/-- The client compares the whole line. -/
theorem Client.wrote_nil (h : c.message.bytes = line.text ++ nul :: rest) :
    c.wrote [] = { c with stage := if line.text = exitWord then .done else .receiving [] } := by
  have hiff : strncmpEq nul 5 c.message.bytes (exitWord ++ [nul]) = true ↔
      line.text = exitWord := by
    rw [h]
    exact strncmpEq_succ_iff (t := exitWord) line.nul_notMem (by decide)
  unfold Client.wrote
  rw [if_neg (by simp)]
  by_cases hexit : line.text = exitWord
  · rw [if_pos (hiff.2 hexit), if_pos hexit]
  · rw [if_neg (mt hiff.1 hexit), if_neg hexit]

/-- The server compares as much as it has received. -/
theorem Server.recv_stage (v : Server) (h : segment.length ≤ bufferSize) (hs : nul ∉ segment) :
    (v.recv segment).stage = if segment <+: exitWord then .done else .sending segment := by
  have hbytes : (loaded v.message segment).bytes =
      segment ++ v.message.bytes.drop segment.length := by
    unfold loaded overwrite
    simp only [List.take_of_length_le h]
  have hiff : strncmpEq nul segment.length (loaded v.message segment).bytes
      (exitWord ++ [nul]) = true ↔ segment <+: exitWord := by
    rw [hbytes]
    exact strncmpEq_length_iff hs
  unfold Server.recv
  dsimp only
  by_cases hexit : segment <+: exitWord
  · rw [if_pos (hiff.2 hexit), if_pos hexit]
  · rw [if_neg (mt hiff.1 hexit), if_neg hexit, hbytes, List.take_left' rfl]

end Steps

/-! ## Where the session is -/

/-- The client waits for a line and nothing is under way. -/
structure Idle (s : State) : Prop where
  client : s.client.stage = .reading
  server : s.server.stage = .receiving
  up : s.up = []
  down : s.down = []

/-- A line other than EXIT is under way. Its bytes are at the client, on their way or at the server,
in this order. -/
structure InFlight (s : State) (line : Line) : Prop where
  ne : line.text ≠ exitWord
  client : (∃ left, s.client.stage = .sending left ∧ left ≠ []) ∨
    ∃ got, s.client.stage = .receiving got
  server : s.server.stage = .receiving ∨ ∃ left, s.server.stage = .sending left ∧ left ≠ []
  message : ∃ rest, s.client.message.bytes = line.text ++ nul :: rest
  n : s.client.n = line.text.length
  whole : s.client.got ++ s.down ++ s.server.left ++ s.up ++ s.client.left = line.text
  unfinished : s.client.got.length < line.text.length

/-- The line EXIT has been typed, and the server has not got any of it or has left its loop. -/
structure Leaving (s : State) : Prop where
  client : (∃ left, s.client.stage = .sending left ∧ left ≠ []) ∨ s.client.stage = .done
  message : ∃ rest, s.client.message.bytes = exitLine.text ++ nul :: rest
  server : s.server.stage = .done ∨
    s.server.stage = .receiving ∧ s.up ++ s.client.left = exitLine.text

variable {s : State} {line : Line} {r : Nat} {left got : Bytes}

theorem Idle.typed (h : Idle s) (line : Line) :
    if line.text = exitWord then Leaving { s with client := s.client.readLine line }
    else InFlight { s with client := s.client.readLine line } line := by
  have hleft : s.server.left = [] := by
    unfold Server.left
    rw [h.server]
  have hmessage : ∃ rest, (s.client.readLine line).message.bytes = line.text ++ nul :: rest := by
    rw [Client.readLine_eq]
    exact ⟨_, bytes_fill (h := line.fits)⟩
  split
  · rename_i hexit
    refine ⟨Or.inl ⟨line.text, ?_, line.nonempty⟩, ?_, Or.inr ⟨h.server, ?_⟩⟩
    · rw [Client.readLine_eq]
    · obtain ⟨rest, hrest⟩ := hmessage
      exact ⟨rest, by rw [hrest, hexit]; rfl⟩
    · rw [Client.readLine_eq, h.up]
      exact hexit
  · rename_i hexit
    refine ⟨hexit, Or.inl ⟨line.text, ?_, line.nonempty⟩, Or.inl h.server, hmessage, ?_, ?_, ?_⟩
    · rw [Client.readLine_eq]
    · rw [Client.readLine_eq]
    · rw [Client.readLine_eq, hleft, h.up, h.down]
      rfl
    · rw [Client.readLine_eq]
      exact List.length_pos_of_ne_nil line.nonempty

namespace InFlight

/-- A `write` of the client. -/
theorem sent (h : InFlight s line) (hc : s.client.stage = .sending left) (r : Nat) :
    InFlight { s with up := s.up ++ left.take r, client := s.client.wrote (left.drop r) } line := by
  have hgot : s.client.got = [] := by
    unfold Client.got
    rw [hc]
  have hleft : s.client.left = left := by
    unfold Client.left
    rw [hc]
  have hwhole := h.whole
  rw [hgot, hleft] at hwhole
  have hsplit : left.take r ++ left.drop r = left := List.take_append_drop r left
  by_cases hdrop : left.drop r = []
  · obtain ⟨rest, hrest⟩ := h.message
    have hwrote : s.client.wrote (left.drop r) = { s.client with stage := .receiving [] } := by
      rw [hdrop, Client.wrote_nil hrest, if_neg h.ne]
    rw [hdrop, List.append_nil] at hsplit
    refine ⟨h.ne, Or.inr ⟨[], ?_⟩, h.server, ?_, ?_, ?_, ?_⟩ <;> dsimp only <;> rw [hwrote]
    · exact ⟨rest, hrest⟩
    · exact h.n
    · rw [hsplit]
      simpa [Client.got, Client.left] using hwhole
    · exact List.length_pos_of_ne_nil line.nonempty
  · have hwrote := s.client.wrote_of_ne hdrop
    refine ⟨h.ne, Or.inl ⟨left.drop r, ?_, hdrop⟩, h.server, ?_, ?_, ?_, ?_⟩ <;> dsimp only <;>
      rw [hwrote]
    · exact h.message
    · exact h.n
    · simpa [Client.got, Client.left, hsplit] using hwhole
    · exact List.length_pos_of_ne_nil line.nonempty

/-- A `read` of the client. -/
theorem taken (h : InFlight s line) (hc : s.client.stage = .receiving got)
    (hle : got.length + r ≤ s.client.n) (hr : r ≤ s.down.length) :
    if got.length + r = s.client.n then
      Idle { s with down := s.down.drop r, client := s.client.read (got ++ s.down.take r) } ∧
        got ++ s.down.take r = line.text
    else
      InFlight { s with down := s.down.drop r, client := s.client.read (got ++ s.down.take r) }
        line := by
  have hgot : s.client.got = got := by
    unfold Client.got
    rw [hc]
  have hleft : s.client.left = [] := by
    unfold Client.left
    rw [hc]
  have hlen : (got ++ s.down.take r).length = got.length + r := by
    rw [List.length_append, List.length_take, Nat.min_eq_left hr]
  have hwhole : got ++ s.down.take r ++ (s.down.drop r ++ s.server.left ++ s.up) = line.text := by
    calc got ++ s.down.take r ++ (s.down.drop r ++ s.server.left ++ s.up)
      _ = got ++ (s.down.take r ++ s.down.drop r) ++ s.server.left ++ s.up := by
        simp only [List.append_assoc]
      _ = s.client.got ++ s.down ++ s.server.left ++ s.up ++ s.client.left := by
        rw [List.take_append_drop, hgot, hleft, List.append_nil]
      _ = line.text := h.whole
  split
  · rename_i hn
    have hread : s.client.read (got ++ s.down.take r) = { s.client with stage := .reading } :=
      if_neg (by omega)
    have hall : got ++ s.down.take r = line.text ∧
        s.down.drop r ++ s.server.left ++ s.up = [] := by
      have hnil : (s.down.drop r ++ s.server.left ++ s.up).length = 0 := by
        have hlength := congrArg List.length hwhole
        rw [List.length_append, hlen, hn, h.n] at hlength
        omega
      have hempty := List.length_eq_zero_iff.1 hnil
      rw [hempty, List.append_nil] at hwhole
      exact ⟨hwhole, hempty⟩
    obtain ⟨hrest, hup⟩ := List.append_eq_nil_iff.1 hall.2
    obtain ⟨hdown, hserver⟩ := List.append_eq_nil_iff.1 hrest
    refine ⟨⟨by rw [hread], ?_, hup, hdown⟩, hall.1⟩
    rcases h.server with hv | ⟨left, hv, hne⟩
    · exact hv
    · unfold Server.left at hserver
      rw [hv] at hserver
      exact absurd hserver hne
  · rename_i hn
    have hread : s.client.read (got ++ s.down.take r) =
        { s.client with stage := .receiving (got ++ s.down.take r) } := if_pos (by omega)
    refine ⟨h.ne, Or.inr ⟨got ++ s.down.take r, ?_⟩, h.server, ?_, ?_, ?_, ?_⟩ <;> dsimp only <;>
      rw [hread]
    · exact h.message
    · exact h.n
    · simp only [Client.got, Client.left, List.append_nil]
      rw [← hwhole]
      simp only [List.append_assoc]
    · have hn' := h.n
      simp only [Client.got, hlen]
      omega

/-- A `recv` of the server. -/
theorem arrived (h : InFlight s line) (hv : s.server.stage = .receiving) (hr : 0 < r)
    (hle : r ≤ s.up.length) (hr' : r ≤ bufferSize) :
    if s.up.take r <+: exitWord then
      (s.server.recv (s.up.take r)).stage = .done
    else
      InFlight { s with up := s.up.drop r, server := s.server.recv (s.up.take r) } line := by
  have hleft : s.server.left = [] := by
    unfold Server.left
    rw [hv]
  have hwhole := h.whole
  rw [hleft] at hwhole
  have hnul : nul ∉ s.up.take r := by
    intro hmem
    apply line.nul_notMem
    rw [← hwhole]
    simp [List.mem_of_mem_take hmem]
  have hlen : (s.up.take r).length ≤ bufferSize := by
    rw [List.length_take]
    omega
  have hstage := s.server.recv_stage hlen hnul
  split
  · rename_i hexit
    rw [hstage, if_pos hexit]
  · rename_i hexit
    rw [if_neg hexit] at hstage
    have hne : s.up.take r ≠ [] := by
      rw [ne_eq, List.take_eq_nil_iff]
      rintro (hr0 | hup)
      · omega
      · rw [hup, List.length_nil] at hle
        omega
    have hleft' : (s.server.recv (s.up.take r)).left = s.up.take r := by
      unfold Server.left
      rw [hstage]
    refine ⟨h.ne, h.client, Or.inr ⟨_, hstage, hne⟩, h.message, h.n, ?_, h.unfinished⟩
    dsimp only
    rw [hleft', ← hwhole]
    simp

/-- A `write` of the server. -/
theorem answered (h : InFlight s line) (hv : s.server.stage = .sending left) (r : Nat) :
    InFlight { s with down := s.down ++ left.take r, server := s.server.wrote (left.drop r) }
      line := by
  have hleft : s.server.left = left := by
    unfold Server.left
    rw [hv]
  have hwhole := h.whole
  rw [hleft, ← List.take_append_drop r left] at hwhole
  by_cases hdrop : left.drop r = []
  · have hwrote : s.server.wrote (left.drop r) = { s.server with stage := .receiving } :=
      if_neg (by simp [hdrop])
    refine ⟨h.ne, h.client, Or.inl (by rw [hwrote]), h.message, h.n, ?_, h.unfinished⟩
    dsimp only
    rw [hwrote]
    rw [hdrop] at hwhole
    simpa [Server.left] using hwhole
  · have hwrote : s.server.wrote (left.drop r) =
        { s.server with stage := .sending (left.drop r) } := if_pos hdrop
    refine ⟨h.ne, h.client, Or.inr ⟨left.drop r, by rw [hwrote], hdrop⟩, h.message, h.n, ?_,
      h.unfinished⟩
    dsimp only
    rw [hwrote]
    simpa [Server.left] using hwhole

end InFlight

namespace Leaving

/-- What is left of `EXIT` may go out in any pieces. -/
theorem sent (h : Leaving s) (hc : s.client.stage = .sending left) (r : Nat) :
    Leaving { s with up := s.up ++ left.take r, client := s.client.wrote (left.drop r) } := by
  have hleft : s.client.left = left := by
    unfold Client.left
    rw [hc]
  have hserver : s.server.stage = .done ∨ s.server.stage = .receiving ∧
      s.up ++ left.take r ++ left.drop r = exitLine.text := by
    rw [List.append_assoc, List.take_append_drop, ← hleft]
    exact h.server
  by_cases hdrop : left.drop r = []
  · obtain ⟨rest, hrest⟩ := h.message
    have hwrote : s.client.wrote (left.drop r) = { s.client with stage := .done } := by
      rw [hdrop, Client.wrote_nil hrest, if_pos (show exitLine.text = exitWord from rfl)]
    rw [hdrop] at hserver
    refine ⟨Or.inr ?_, ?_, ?_⟩ <;> dsimp only <;> rw [hwrote]
    · exact ⟨rest, hrest⟩
    · exact hserver
  · have hwrote := s.client.wrote_of_ne hdrop
    refine ⟨Or.inl ⟨left.drop r, ?_, hdrop⟩, ?_, ?_⟩ <;> dsimp only <;> rw [hwrote]
    · exact h.message
    · exact hserver

/-- Any piece of the line EXIT ends the loop of the server. -/
theorem arrived (h : Leaving s) (hv : s.server.stage = .receiving) (r : Nat) :
    Leaving { s with up := s.up.drop r, server := s.server.recv (s.up.take r) } := by
  have hup : s.up ++ s.client.left = exitLine.text := by
    rcases h.server with hdone | ⟨-, hup⟩
    · rw [hv] at hdone
      cases hdone
    · exact hup
  have hpre : s.up.take r <+: exitWord :=
    (List.take_prefix r s.up).trans ⟨_, hup⟩
  have hlen : (s.up.take r).length ≤ bufferSize :=
    hpre.length_le.trans (by decide)
  have hnul : nul ∉ s.up.take r := fun hmem => exitLine.nul_notMem (hpre.subset hmem)
  refine ⟨h.client, h.message, Or.inl ?_⟩
  dsimp only
  rw [s.server.recv_stage hlen hnul, if_pos hpre]

end Leaving

/-! ## The invariant of a run -/

/-- What `recv` returns is no piece of a line that starts EXIT, unless the line is EXIT. -/
def NoPieceOfExit (s : State) (e : Event) : Prop :=
  match e with
  | .recv r => s.up.take r <+: exitWord → s.client.line = some exitWord
  | _ => True

instance (s : State) (e : Event) : Decidable (NoPieceOfExit s e) :=
  match e with
  | .readLine _ => isTrue trivial
  | .clientWrite _ => isTrue trivial
  | .clientRead _ => isTrue trivial
  | .recv r =>
    inferInstanceAs (Decidable (s.up.take r <+: exitWord → s.client.line = some exitWord))
  | .serverWrite _ => isTrue trivial

/-- The invariant of the runs with no such piece. -/
structure Kept (steps : List (State × Event)) (s : State) : Prop where
  fresh : exitWord ∉ echoed steps
  phase : Idle s ∧ typed steps = echoed steps ∨
    (∃ line, InFlight s line ∧ typed steps = echoed steps ++ [line.text]) ∨
    Leaving s ∧ typed steps = echoed steps ++ [exitWord]

theorem Kept.init (message message' : Buffer bufferSize) : Kept [] (start message message') :=
  ⟨List.not_mem_nil, Or.inl ⟨⟨rfl, rfl, rfl, rfl⟩, rfl⟩⟩

theorem InFlight.line_eq (h : InFlight s line) : s.client.line = some line.text := by
  obtain ⟨rest, hrest⟩ := h.message
  unfold Client.line
  rw [text_of_bytes line.nul_notMem hrest, if_neg]
  rcases h.client with ⟨left, hc, -⟩ | ⟨got, hc⟩ <;> rw [hc] <;> exact ClientStage.noConfusion

theorem Leaving.line_eq (h : Leaving s) : s.client.line = some exitWord := by
  obtain ⟨rest, hrest⟩ := h.message
  unfold Client.line
  rw [text_of_bytes exitLine.nul_notMem hrest, if_neg]
  · rfl
  · rcases h.client with ⟨left, hc, -⟩ | hc <;> rw [hc] <;> exact ClientStage.noConfusion

section Steps

variable {steps : List (State × Event)} {s' : State} {e : Event}

variable (steps) in
theorem echoed_snoc_of_none (h : echoedBy (s, e) = none) :
    echoed (steps ++ [(s, e)]) = echoed steps := by
  unfold echoed
  rw [filterMap_snoc, h]
  exact List.append_nil _

variable (steps) in
theorem typed_snoc_of_none (h : typedBy (s, e) = none) :
    typed (steps ++ [(s, e)]) = typed steps := by
  unfold typed
  rw [filterMap_snoc, h]
  exact List.append_nil _

namespace Kept

/-- A line that is typed is one that is on its way, or the last one. -/
theorem typed_step (h : Kept steps s) (hc : s.client.stage = .reading) (line : Line) :
    Kept (steps ++ [(s, .readLine line)]) { s with client := s.client.readLine line } := by
  have hechoed := echoed_snoc_of_none steps (s := s) (e := .readLine line) rfl
  have htyped : typed (steps ++ [(s, .readLine line)]) = typed steps ++ [line.text] :=
    filterMap_snoc typedBy steps _
  rcases h.phase with ⟨hidle, heq⟩ | ⟨_, hf, -⟩ | ⟨hl, -⟩
  · have hnext := hidle.typed line
    refine ⟨hechoed ▸ h.fresh, Or.inr ?_⟩
    rw [hechoed, htyped, heq]
    split at hnext
    · rename_i hexit
      exact Or.inr ⟨hnext, by rw [hexit]⟩
    · exact Or.inl ⟨line, hnext, rfl⟩
  · rcases hf.client with ⟨left, hc', -⟩ | ⟨got, hc'⟩ <;> rw [hc] at hc' <;> cases hc'
  · rcases hl.client with ⟨left, hc', -⟩ | hc' <;> rw [hc] at hc' <;> cases hc'

/-- A step that carries bytes of the line under way. -/
theorem carried (h : Kept steps s) (htyped : typedBy (s, e) = none)
    (hechoed : echoedBy (s, e) = none) (hidle : ¬ Idle s)
    (hflight : ∀ line, InFlight s line → InFlight s' line) (hleaving : Leaving s → Leaving s') :
    Kept (steps ++ [(s, e)]) s' := by
  have hechoed' := echoed_snoc_of_none steps hechoed
  refine ⟨hechoed' ▸ h.fresh, Or.inr ?_⟩
  rw [hechoed', typed_snoc_of_none steps htyped]
  rcases h.phase with ⟨hi, -⟩ | ⟨line, hf, heq⟩ | ⟨hl, heq⟩
  · exact absurd hi hidle
  · exact Or.inl ⟨line, hflight line hf, heq⟩
  · exact Or.inr ⟨hleaving hl, heq⟩

/-- While the client is in `recv_msg`, the server has not left its loop. -/
theorem open_of_receiving (h : Kept steps s) (hc : s.client.stage = .receiving got) :
    ∃ line, InFlight s line ∧ typed steps = echoed steps ++ [line.text] ∧
      s.server.stage ≠ .done := by
  rcases h.phase with ⟨hi, -⟩ | ⟨line, hf, heq⟩ | ⟨hl, -⟩
  · have hc' := hi.client
    rw [hc] at hc'
    cases hc'
  · refine ⟨line, hf, heq, ?_⟩
    rcases hf.server with hv | ⟨left, hv, -⟩ <;> rw [hv] <;> exact ServerStage.noConfusion
  · rcases hl.client with ⟨left, hc', -⟩ | hc' <;> rw [hc] at hc' <;> cases hc'

/-- What the client reads is what the server has echoed, in any pieces. -/
theorem taken_step (h : Kept steps s) (hc : s.client.stage = .receiving got)
    (hr : 0 < r ∧ r ≤ s.down.length ∧ got.length + r ≤ s.client.n ∨
      r = 0 ∧ s.down = [] ∧ s.server.stage = .done) :
    Kept (steps ++ [(s, .clientRead r)])
      { s with down := s.down.drop r, client := s.client.read (got ++ s.down.take r) } := by
  obtain ⟨line, hf, heq, hopen⟩ := h.open_of_receiving hc
  have hle : r ≤ s.down.length ∧ got.length + r ≤ s.client.n := by
    rcases hr with hr | hr
    · exact hr.2
    · exact absurd hr.2.2 hopen
  have htyped := typed_snoc_of_none steps (s := s) (e := .clientRead r) rfl
  have hnext := hf.taken hc hle.2 hle.1
  split at hnext
  · rename_i hn
    have hechoed : echoed (steps ++ [(s, .clientRead r)]) = echoed steps ++ [line.text] := by
      unfold echoed
      rw [filterMap_snoc]
      simp [echoedBy, hc, hn, hnext.2]
    refine ⟨?_, Or.inl ⟨hnext.1, ?_⟩⟩
    · rw [hechoed, List.mem_append, List.mem_singleton]
      rintro (hmem | hmem)
      · exact h.fresh hmem
      · exact hf.ne hmem.symm
    · rw [htyped, hechoed, heq]
  · rename_i hn
    have hechoed := echoed_snoc_of_none steps (s := s) (e := .clientRead r)
      (by simp [echoedBy, hc, hn])
    refine ⟨hechoed ▸ h.fresh, Or.inr (Or.inl ⟨line, hnext, ?_⟩)⟩
    rw [htyped, hechoed, heq]

/-- A step in which the server takes no piece of a line for `EXIT` keeps the invariant. -/
theorem step (h : Kept steps s) (hG : NoPieceOfExit s e) (hs : Step s e s') :
    Kept (steps ++ [(s, e)]) s' := by
  cases hs.moved with
  | typed line hc => exact h.typed_step hc line
  | @sent r left hc hr hle =>
    refine h.carried rfl rfl (fun hi => ?_) (fun line hf => hf.sent hc r) fun hl => hl.sent hc r
    have hc' := hi.client
    rw [hc] at hc'
    cases hc'
  | got hc hr => exact h.taken_step hc hr
  | @arrived r hv hr =>
    refine h.carried rfl rfl (fun hi => ?_) (fun line hf => ?_) fun hl => hl.arrived hv r
    · rcases hr with hr | ⟨-, -, hc⟩
      · rw [hi.up, List.length_nil] at hr
        omega
      · rw [hi.client] at hc
        cases hc
    · have hpos : 0 < r ∧ r ≤ s.up.length ∧ r ≤ bufferSize := by
        rcases hr with hr | ⟨-, -, hc⟩
        · exact hr
        · rcases hf.client with ⟨left, hc', -⟩ | ⟨got, hc'⟩ <;> rw [hc] at hc' <;> cases hc'
      have hnext := hf.arrived hv hpos.1 hpos.2.1 hpos.2.2
      rw [if_neg] at hnext
      · exact hnext
      · intro hpiece
        have hline := hG hpiece
        rw [hf.line_eq] at hline
        exact hf.ne (Option.some.inj hline)
  | @answered r left hv hr hle =>
    refine h.carried rfl rfl (fun hi => ?_) (fun line hf => hf.answered hv r) fun hl => ?_
    · have hv' := hi.server
      rw [hv] at hv'
      cases hv'
    · rcases hl.server with hv' | ⟨hv', -⟩ <;> rw [hv] at hv' <;> cases hv'

end Kept

end Steps

/-! ## Progress -/

/-- No line is typed in the step. -/
def Event.own : Event → Bool
  | .readLine _ => false
  | _ => true

/-- The client waits for a line, or both have left their loops. -/
def Rested (s : State) : Prop :=
  s.client.stage = .reading ∨ s.client.stage = .done ∧ s.server.stage = .done

instance (s : State) : Decidable (Rested s) := inferInstanceAs (Decidable (_ ∨ _))

/-- A bound on the steps until the next line is typed. -/
def State.rest (s : State) : Nat :=
  4 * s.client.left.length + 3 * s.up.length + 2 * s.server.left.length + s.down.length +
    if s.server.stage = .done then 0 else 1

theorem Client.left_wrote (c : Client) (left : Bytes) : (c.wrote left).left = left := by
  unfold Client.wrote
  split
  · rfl
  · rename_i hnil
    rw [not_not.1 hnil]
    split <;> rfl

theorem Client.left_read (c : Client) (got : Bytes) : (c.read got).left = [] := by
  unfold Client.read
  split <;> rfl

theorem Server.left_wrote (v : Server) (left : Bytes) :
    (v.wrote left).left = left ∧ (v.wrote left).stage ≠ .done := by
  unfold Server.wrote
  split
  · exact ⟨rfl, ServerStage.noConfusion⟩
  · rename_i hnil
    rw [not_not.1 hnil]
    exact ⟨rfl, ServerStage.noConfusion⟩

/-- The server has no more to send than it has received. -/
theorem Server.left_recv_le (v : Server) (segment : Bytes) :
    (v.recv segment).left.length ≤ segment.length := by
  unfold Server.recv
  dsimp only
  split
  · exact Nat.zero_le _
  · exact List.length_take_le _ _

theorem Server.recv_nil (v : Server) : (v.recv []).stage = .done := rfl

/-- Only a client that reads on after the server has left its loop goes on for ever. -/
theorem rest_lt {s' : State} {e : Event} (hs : Step s e s') (he : e.own = true)
    (hopen : ∀ got, s.client.stage = .receiving got → s.server.stage ≠ .done) :
    s'.rest < s.rest := by
  unfold State.rest
  cases hs.moved with
  | typed line hc => cases he
  | @sent r left hc hr hle =>
    have hleft : s.client.left = left := by
      unfold Client.left
      rw [hc]
    dsimp only
    rw [Client.left_wrote, hleft, List.length_append, List.length_take, List.length_drop]
    omega
  | @got r got hc hr =>
    have hleft : s.client.left = [] := by
      unfold Client.left
      rw [hc]
    have hpos : 0 < r ∧ r ≤ s.down.length := by
      rcases hr with hr | ⟨-, -, hdone⟩
      · exact ⟨hr.1, hr.2.1⟩
      · exact absurd hdone (hopen got hc)
    dsimp only
    rw [Client.left_read, hleft, List.length_drop]
    omega
  | @arrived r hv hr =>
    have hleft : s.server.left = [] := by
      unfold Server.left
      rw [hv]
    have hopen' : s.server.stage ≠ .done := by
      rw [hv]
      exact ServerStage.noConfusion
    dsimp only
    rw [hleft, if_neg hopen', List.length_drop]
    rcases hr with hr | ⟨rfl, -, -⟩
    · have hle := s.server.left_recv_le (s.up.take r)
      rw [List.length_take] at hle
      split <;> simp only [List.length_nil] <;> omega
    · rw [List.take_zero, if_pos (Server.recv_nil _)]
      have hle := s.server.left_recv_le []
      simp only [List.length_nil] at hle ⊢
      omega
  | @answered r left hv hr hle =>
    have hleft : s.server.left = left := by
      unfold Server.left
      rw [hv]
    have hopen' : s.server.stage ≠ .done := by
      rw [hv]
      exact ServerStage.noConfusion
    obtain ⟨hwrote, hstage⟩ := s.server.left_wrote (left.drop r)
    dsimp only
    rw [hwrote, hleft, if_neg hstage, if_neg hopen', List.length_append, List.length_take,
      List.length_drop]
    omega

theorem step_of_next {e : Event} (he : e.own = true) (h : (s.next e).isSome) :
    ∃ e s', Event.own e = true ∧ Step s e s' := by
  obtain ⟨s', hs⟩ := Option.isSome_iff_exists.1 h
  exact ⟨e, s', he, hs⟩

/-- A client with something left can write. -/
theorem step_clientWrite (hc : s.client.stage = .sending left) (hne : left ≠ []) :
    ∃ e s', Event.own e = true ∧ Step s e s' := by
  apply step_of_next (e := .clientWrite 1) rfl
  have hle : 1 ≤ left.length := List.length_pos_of_ne_nil hne
  simp [State.next, hc, hle]

/-- A server that waits for bytes takes what is there. -/
theorem step_recv (hv : s.server.stage = .receiving) (hne : s.up ≠ []) :
    ∃ e s', Event.own e = true ∧ Step s e s' := by
  apply step_of_next (e := .recv 1) rfl
  have hle : 1 ≤ s.up.length := List.length_pos_of_ne_nil hne
  simp [State.next, hv, hle, bufferSize]

/-- While a line is on its way, one of the two sides can go on. -/
theorem InFlight.progress (h : InFlight s line) : ∃ e s', Event.own e = true ∧ Step s e s' := by
  rcases h.client with ⟨left, hc, hne⟩ | ⟨got, hc⟩
  · exact step_clientWrite hc hne
  · rcases h.server with hv | ⟨left, hv, hne⟩
    · by_cases hup : s.up = []
      · -- what is not at the client is on its way there
        have hgot : s.client.got = got := by
          unfold Client.got
          rw [hc]
        have hwhole := congrArg List.length h.whole
        have hunfinished := h.unfinished
        have hn := h.n
        simp only [Server.left, hv, hup, Client.left, hc, hgot, List.append_nil,
          List.length_append] at hwhole hunfinished
        have hle : 1 ≤ s.down.length ∧ got.length + 1 ≤ s.client.n := by omega
        apply step_of_next (e := .clientRead 1) rfl
        simp [State.next, hc, hle]
      · exact step_recv hv hup
    · apply step_of_next (e := .serverWrite 1) rfl
      have hle : 1 ≤ left.length := List.length_pos_of_ne_nil hne
      simp [State.next, hv, hle]

/-- Until both sides are done, one of them can go on. -/
theorem Leaving.progress (h : Leaving s) (hq : ¬ Rested s) :
    ∃ e s', Event.own e = true ∧ Step s e s' := by
  rcases h.client with ⟨left, hc, hne⟩ | hc
  · exact step_clientWrite hc hne
  · rcases h.server with hv | ⟨hv, hup⟩
    · exact absurd (Or.inr ⟨hc, hv⟩) hq
    · refine step_recv hv fun hnil => exitLine.nonempty ?_
      rw [← hup, hnil]
      unfold Client.left
      rw [hc]
      rfl

/-! ## Agreement -/

/-- What the client has got back are the lines typed but for the one under way. The server keeps the
session open until EXIT is typed, and then both leave their loops. -/
structure Agreement (steps : List (State × Event)) (s : State) : Prop where
  echoes : typed steps = echoed steps ++ s.client.line.toList
  stays : exitWord ∉ typed steps → s.server.stage ≠ .done
  ends : exitWord ∈ typed steps → s.client.stage ≠ .reading
  progress : ¬ Rested s → ∃ e s', Event.own e = true ∧ Step s e s'
  finite : ∀ e s', Event.own e = true → Step s e s' → s'.rest < s.rest

section Agreement

variable {steps : List (State × Event)}

/-- What the invariant promises of lines and echoes. -/
theorem Kept.agreement (h : Kept steps s) : Agreement steps s := by
  have hfinite : ∀ e s', Event.own e = true → Step s e s' → s'.rest < s.rest := by
    intro e s' he hs
    refine rest_lt hs he fun got hc => ?_
    obtain ⟨line, -, -, hopen⟩ := h.open_of_receiving hc
    exact hopen
  rcases h.phase with ⟨hi, heq⟩ | ⟨line, hf, heq⟩ | ⟨hl, heq⟩
  · refine ⟨?_, fun _ => ?_, fun hmem => ?_, fun hq => absurd (Or.inl hi.client) hq, hfinite⟩
    · rw [heq, Client.line, if_pos hi.client]
      exact (List.append_nil _).symm
    · rw [hi.server]
      exact ServerStage.noConfusion
    · rw [heq] at hmem
      exact absurd hmem h.fresh
  · refine ⟨?_, fun _ => ?_, fun _ => ?_, fun _ => hf.progress, hfinite⟩
    · rw [heq, hf.line_eq]
      rfl
    · rcases hf.server with hv | ⟨left, hv, -⟩ <;> rw [hv] <;> exact ServerStage.noConfusion
    · rcases hf.client with ⟨left, hc, -⟩ | ⟨got, hc⟩ <;> rw [hc] <;> exact ClientStage.noConfusion
  · refine ⟨?_, fun hmem => ?_, fun _ => ?_, hl.progress, hfinite⟩
    · rw [heq, hl.line_eq]
      rfl
    · rw [heq] at hmem
      exact absurd (by simp) hmem
    · rcases hl.client with ⟨left, hc, -⟩ | hc <;> rw [hc] <;> exact ClientStage.noConfusion

/-- A piece of another line that starts EXIT ends the session at the server. -/
theorem Kept.noPieceOfExit {s' : State} {e : Event} (h : Kept steps s) (hs : Step s e s')
    (hP : Agreement (steps ++ [(s, e)]) s') : NoPieceOfExit s e := by
  cases hs.moved with
  | typed line hc => trivial
  | sent hc hr hle => trivial
  | got hc hr => trivial
  | answered hv hr hle => trivial
  | @arrived r hv hr =>
    intro hpiece
    rcases h.phase with ⟨hi, -⟩ | ⟨line, hf, heq⟩ | ⟨hl, -⟩
    · rcases hr with hr | ⟨-, -, hc⟩
      · rw [hi.up, List.length_nil] at hr
        omega
      · rw [hi.client] at hc
        cases hc
    · rcases hr with hr | ⟨-, -, hc⟩
      · have hdone := hf.arrived hv hr.1 hr.2.1 hr.2.2
        rw [if_pos hpiece] at hdone
        refine absurd hdone (hP.stays ?_)
        rw [typed_snoc_of_none _ rfl, heq, List.mem_append, List.mem_singleton]
        rintro (hmem | hmem)
        · exact h.fresh hmem
        · exact hf.ne hmem.symm
      · rcases hf.client with ⟨left, hc', -⟩ | ⟨got, hc'⟩ <;> rw [hc] at hc' <;> cases hc'
    · exact hl.line_eq

/-- **A session agrees all along exactly if no `recv` returns a piece of a line other than EXIT that
starts EXIT**: then the client gets back every line whole, the server stays in its loop until EXIT
is typed, and both leave their loops after it. -/
theorem agreement_iff {message message' : Buffer bufferSize}
    (h : Run Step (start message message') steps s) :
    (∀ steps' s', steps' <+: steps → Run Step (start message message') steps' s' →
        Agreement steps' s') ↔
      Guarded NoPieceOfExit steps :=
  h.forall_prefix_iff (I := Kept) (Kept.init message message') (fun _ _ hk => hk.agreement)
    (fun _ _ _ _ hk hG hs => hk.step hG hs) fun _ _ _ _ hk hs hP => hk.noPieceOfExit hs hP

def zeroBuffer : Buffer bufferSize := Buffer.zeros bufferSize

def okLine : Line := ⟨cstring "ok", by decide, by decide, by decide⟩

/-- The line ok comes back in two pieces, and then EXIT in two. -/
theorem okLine_agreement :
    ∃ steps s, Run Step (start zeroBuffer zeroBuffer) steps s ∧ Agreement steps s ∧
      typed steps = [cstring "ok", exitWord] ∧ Rested s := by
  obtain ⟨steps, s, hr, hG, htyped, hq⟩ :
      ∃ steps s, Run Step (start zeroBuffer zeroBuffer) steps s ∧
        Guarded NoPieceOfExit steps ∧ typed steps = [cstring "ok", exitWord] ∧ Rested s :=
    Run.exists_of_replay [.readLine okLine, .clientWrite 2, .recv 1, .serverWrite 1, .clientRead 1,
      .recv 1, .serverWrite 1, .clientRead 1, .readLine exitLine, .clientWrite 4, .recv 2]
      (by decide)
  exact ⟨steps, s, hr, (agreement_iff hr).2 hG steps s (List.prefix_refl _) hr, htyped, hq⟩

def eLine : Line := ⟨cstring "E", by decide, by decide, by decide⟩

/-- The server ends the session after the line E, and the client waits for it to come back. -/
theorem eLine_ends :
    ∃ steps s, Run Step (start zeroBuffer zeroBuffer) steps s ∧ typed steps = [cstring "E"] ∧
      s.server.stage = .done ∧ s.client.stage = .receiving [] ∧ ¬ Agreement steps s := by
  obtain ⟨steps, s, hr, htyped, hv, hc⟩ :
      ∃ steps s, Run Step (start zeroBuffer zeroBuffer) steps s ∧
        typed steps = [cstring "E"] ∧ s.server.stage = .done ∧ s.client.stage = .receiving [] :=
    Run.exists_of_replay [.readLine eLine, .clientWrite 1, .recv 1] (by decide)
  refine ⟨steps, s, hr, htyped, hv, hc, fun hP => hP.stays ?_ hv⟩
  rw [htyped]
  decide

end Agreement

end DistributedSystems.Exercise2
