import DistributedSystems.Lab.ClientJava.Streams

/-!
# File transfer (`clientjava/ManageRequest.java`, `get_file` of `clientjava/client.java`)

The peer reads a shared file line by line and sends the lines without their ends; `get_file` reads
lines again and writes them without ends too, since its `newLine` goes to the socket. A transfer is
therefore exact for the texts without line ends and for no others (`getFile_exact_iff`).
-/

namespace DistributedSystems.Lab

open Fs Support TextLines

/-- Ip and port of a user, as `list_users` received them. -/
structure UsersData where
  ip : List Char
  port : List Char
deriving DecidableEq, Repr

namespace ManageRequest

def filesPath : List Char := "./UserSharedFiles/".toList

def getFile : List Char := "GET_FILE".toList

/-- The bytes that the thread of a connection writes, by those it reads. `files` are the contents of
the files that there are, by their paths. -/
def run (C : Charset) (files : List Char → Option Bytes) (input : Bytes) : Bytes :=
  match TextLines.readLine (C.decode input) with
  | none => []
  | some (operation, rest) =>
    if operation = getFile then
      match TextLines.readLine rest with
      | none => []
      | some (fileName, _) =>
        match files (filesPath ++ fileName) with
        | none => writeInt 1
        | some content => writeInt 0 ++ C.encode (lines (C.decode content)).flatten
    else writeInt 2

end ManageRequest

def Client.filePath : List Char := "./UserFiles/".toList

/-- How `get_file` ends: a failure is printed, or the code of the peer is none that it knows, or
GET_FILE OK is printed. Then a local file has been written, and some bytes have been sent on. -/
inductive GetFile
  | fail
  | unknown
  | ok (fileName : List Char) (content sent : Bytes)
deriving DecidableEq, Repr

/-- The bytes that ask for a file. -/
def getFileRequest (C : Charset) (remoteFileName : List Char) : Bytes :=
  C.encode (ManageRequest.getFile ++ lineSeparator ++ (remoteFileName ++ lineSeparator))

/-- `get_file`. The peer of an address is what it answers to the bytes of a request, if a connection
can be opened; `writable` says whether the local file can be. -/
def getFile (C : Charset) (usersData : List Char → Option UsersData)
    (peer : UsersData → Option (Bytes → Bytes)) (writable : Bool)
    (userName remoteFileName localFileName : List Char) : GetFile :=
  match usersData userName with
  | none => .fail
  | some remoteData =>
    match peer remoteData with
    | none => .fail
    | some answer =>
      match readInt (answer (getFileRequest C remoteFileName)) with
      | none => .fail
      | some (response, rest) =>
        if response = 1 ∨ response = 2 then .fail
        else if response = 0 then
          if writable then
            let received := lines (C.decode rest)
            -- the line ends are written to the stream of the request
            .ok (Client.filePath ++ localFileName) (C.encode received.flatten)
              (C.encode (received.flatMap fun _ => lineSeparator))
          else .fail
        else .unknown

/-! ## One transfer -/

section Transfer

variable {C : Charset} {files : List Char → Option Bytes}

/-- A name that can stand on a line. -/
def OneLine (C : Charset) (name : List Char) : Prop := ∀ c ∈ name, C.Carries c ∧ ¬ IsBreak c

/-- The peer understands the request. -/
theorem run_getFileRequest {name : List Char} (hname : OneLine C name) {content : Bytes}
    (hfile : files (ManageRequest.filesPath ++ name) = some content) :
    ManageRequest.run C files (getFileRequest C name) =
      writeInt 0 ++ C.encode (lines (C.decode content)).flatten := by
  have hcommand : ∀ c ∈ ManageRequest.getFile, c.toNat < 0x80 ∧ ¬ IsBreak c :=
    List.forall_iff_forall_mem.1 (by decide)
  have hfeed : C.Carries '\n' := C.carries_ascii _ (by decide)
  have hcarries : ∀ c ∈ ManageRequest.getFile ++ lineSeparator ++ (name ++ lineSeparator),
      C.Carries c := by
    intro c hc
    simp only [lineSeparator, List.mem_append, List.mem_singleton] at hc
    rcases hc with (hc | rfl) | (hc | rfl)
    · exact C.carries_ascii c (hcommand c hc).1
    · exact hfeed
    · exact (hname c hc).1
    · exact hfeed
  have hfirst : TextLines.readLine
      (ManageRequest.getFile ++ lineSeparator ++ (name ++ lineSeparator)) =
        some (ManageRequest.getFile, name ++ lineSeparator) := by
    rw [List.append_assoc]
    exact congrArg some (cut_append_feed (fun c hc => (hcommand c hc).2) _)
  have hsecond : TextLines.readLine (name ++ lineSeparator) = some (name, []) := by
    unfold TextLines.readLine
    rw [if_neg (by simp [lineSeparator])]
    exact congrArg some (cut_append_feed (fun c hc => (hname c hc).2) _)
  unfold ManageRequest.run getFileRequest
  rw [C.decode_encode _ hcarries, hfirst]
  simp only [if_true, hsecond, hfile]

/-- The text without its line ends is what arrives. -/
theorem getFile_eq {usersData : List Char → Option UsersData}
    {peer : UsersData → Option (Bytes → Bytes)} {userName name localName : List Char}
    {remoteData : UsersData} (huser : usersData userName = some remoteData)
    (hpeer : peer remoteData = some (ManageRequest.run C files)) (hname : OneLine C name)
    {text : List Char} (htext : ∀ c ∈ text, C.Carries c)
    (hfile : files (ManageRequest.filesPath ++ name) = some (C.encode text)) (writable : Bool) :
    getFile C usersData peer writable userName name localName =
      if writable then
        .ok (Client.filePath ++ localName) (C.encode (joined text))
          (C.encode ((lines (joined text)).flatMap fun _ => lineSeparator))
      else .fail := by
  have hjoined : ∀ c ∈ joined text, C.Carries c := by
    intro c hc
    exact htext c (mem_of_mem_joined hc)
  unfold getFile
  simp only [huser, hpeer, run_getFileRequest hname hfile, C.decode_encode text htext]
  unfold writeInt
  rw [readInt_htonl, flatten_lines, asInt_eq (by decide)]
  simp only [C.decode_encode _ hjoined, flatten_lines, joined_joined]
  rfl

/-- **A transfer is exact** exactly for the texts without line ends. -/
theorem getFile_exact_iff {usersData : List Char → Option UsersData}
    {peer : UsersData → Option (Bytes → Bytes)} {userName name localName : List Char}
    {remoteData : UsersData} (huser : usersData userName = some remoteData)
    (hpeer : peer remoteData = some (ManageRequest.run C files)) (hname : OneLine C name)
    {text : List Char} (htext : ∀ c ∈ text, C.Carries c)
    (hfile : files (ManageRequest.filesPath ++ name) = some (C.encode text)) {writable : Bool}
    {fileName : List Char} {content sent : Bytes}
    (hok : getFile C usersData peer writable userName name localName =
      .ok fileName content sent) :
    content = C.encode text ↔ ∀ c ∈ text, ¬ IsBreak c := by
  rw [getFile_eq huser hpeer hname htext hfile] at hok
  split at hok
  · obtain ⟨-, rfl, -⟩ := GetFile.ok.inj hok
    rw [C.encode_inj (fun c hc => htext c (mem_of_mem_joined hc)) htext, joined_eq_self_iff]
  · cases hok

end Transfer

/-- A peer at some address that shares one file `f`. -/
def sharing (text : List Char) : UsersData → Option (Bytes → Bytes) := fun _ =>
  some (ManageRequest.run Charset.utf8 fun path =>
    if path = ManageRequest.filesPath ++ ['f'] then some (Charset.utf8.encode text) else none)

def someUser : List Char → Option UsersData := fun _ => some ⟨['i'], ['p']⟩

theorem oneLine_f : OneLine Charset.utf8 ['f'] := by
  intro c hc
  rw [List.mem_singleton.1 hc]
  exact ⟨trivial, by decide⟩

theorem getFile_sharing (text : List Char) :
    getFile Charset.utf8 someUser (sharing text) true ['u'] ['f'] ['g'] =
      .ok (Client.filePath ++ ['g']) (Charset.utf8.encode (joined text))
        (Charset.utf8.encode ((lines (joined text)).flatMap fun _ => lineSeparator)) :=
  getFile_eq rfl rfl oneLine_f (fun _ _ => trivial) (if_pos rfl) true

theorem one_line_exact :
    Charset.utf8.encode (joined ['a']) = Charset.utf8.encode ['a'] ↔ ∀ c ∈ ['a'], ¬ IsBreak c :=
  getFile_exact_iff (by rfl) (by rfl) oneLine_f (fun _ _ => trivial) (if_pos rfl)
    (getFile_sharing ['a'])

/-- Two lines arrive as one. -/
theorem two_lines_joined :
    ¬ ∀ (C : Charset) (usersData : List Char → Option UsersData)
      (peer : UsersData → Option (Bytes → Bytes)) (files : List Char → Option Bytes)
      (userName name localName text : List Char) (remoteData : UsersData) (writable : Bool)
      (fileName : List Char) (content sent : Bytes),
      usersData userName = some remoteData → peer remoteData = some (ManageRequest.run C files) →
      OneLine C name → (∀ c ∈ text, C.Carries c) →
      files (ManageRequest.filesPath ++ name) = some (C.encode text) →
      getFile C usersData peer writable userName name localName = .ok fileName content sent →
        content = C.encode text := by
  intro h
  have hbytes : Charset.utf8.encode (joined ['a', '\n', 'b']) =
      Charset.utf8.encode ['a', '\n', 'b'] :=
    h Charset.utf8 someUser (sharing ['a', '\n', 'b']) _ ['u'] ['f'] ['g'] ['a', '\n', 'b'] _ true _
      _ _ rfl rfl oneLine_f (fun _ _ => trivial) (if_pos rfl) (getFile_sharing _)
  exact absurd hbytes (by decide)

end DistributedSystems.Lab
