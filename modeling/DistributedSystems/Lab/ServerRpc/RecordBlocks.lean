import DistributedSystems.Lab.ServerRpc.Daemon
import DistributedSystems.Support.CString
import Mathlib.Data.List.Forall2

/-!
# Connection records as memory (`serverrpc/storage_server.c`, `lib/LinkedList.c`)

A record is one block of three arrays, and `strcpy` knows nothing of their bounds: a field without
room for its NUL runs into the next one, whose copy then takes the NUL away. The decoder of
`storage.x` lets each field be one byte longer than its array has room for. While the fields fit,
the blocks do what `StorageServer` says of the strings (`connectUserRpc1Svc.blocks_refines`); what
CONNECT stores can be found and listed only then (`connect_recorded_iff`).
-/

namespace DistributedSystems.Lab

open Fs Support

def ipSize : Nat := 16

/-- The memory of one `UserServerData`: `name`, `port` and `ip_address`. -/
abbrev Block : Type := Buffer (maxSize + portSize + ipSize)

/-- `strcpy` to an offset, unless that writes outside the array. -/
def Buffer.strcpy {size : Nat} (offset : Nat) (s : Bytes) (b : Buffer size) :
    Option (Buffer size) :=
  (strcpyAt nul offset s b.bytes).pmap (fun bytes h => ⟨bytes, h⟩)
    fun _ hb => (length_strcpyAt hb).trans b.length_bytes

theorem Buffer.strcpy_eq_some_iff {size offset : Nat} {s : Bytes} {b b' : Buffer size} :
    b.strcpy offset s = some b' ↔ strcpyAt nul offset s b.bytes = some b'.bytes := by
  unfold Buffer.strcpy
  rw [Option.pmap_eq_some_iff]
  constructor
  · rintro ⟨bytes, hb, hs, rfl⟩
    exact hs
  · intro hs
    exact ⟨b'.bytes, b'.length_bytes, hs, rfl⟩

structure BlockStore where
  tree : Tree
  connected : List Block

def findElementByname.blocks : List Block → Bytes → Int
  | [], _ => 0
  | current :: next, data =>
    if strcmpEq nul current.bytes (data ++ [nul]) then 1 else findElementByname.blocks next data

/-- The three copies of CONNECT, in their order, to a block that holds anything. -/
def ConnectArguments.copyTo (arg1 : ConnectArguments) (tmp : Block) : Option Block := do
  let tmp ← tmp.strcpy 0 arg1.name
  let tmp ← tmp.strcpy maxSize arg1.port
  tmp.strcpy (maxSize + portSize) arg1.ip

/-- There is no store after a write outside the block. -/
def connectUserRpc1Svc.blocks (c : SysCalls) (arg1 : ConnectArguments) (tmp : Block)
    (s : BlockStore) : Int × Option BlockStore :=
  if isusrRegistered c s.tree arg1.name = 0 then (1, some s)
  else if findElementByname.blocks s.connected arg1.name ≠ 0 then (2, some s)
  else
    (0, (arg1.copyTo tmp).map fun data => { s with connected := s.connected ++ [data] })

/-- `strcpy` of the string at an offset to an array of its own. -/
def Block.copyOut (size offset : Nat) (user : Block) : Option Bytes := do
  let s ← stringAt nul offset user.bytes
  if s.length + 1 ≤ size then some s else none

def Block.copyUser (user : Block) : Option UserServer := do
  let name ← user.copyOut maxSize 0
  let ip ← user.copyOut ipSize (maxSize + portSize)
  let port ← user.copyOut portSize maxSize
  return ⟨name, port, ip⟩

def copyUsers : List Block → Option (List UserServer)
  | [] => some []
  | user :: users => do
    let tmp ← user.copyUser
    let rest ← copyUsers users
    return tmp :: rest

/-- All allocations succeed. There is no list after a copy that reads or writes outside its
arrays. -/
def listUsers1Svc.blocks (s : BlockStore) : Option (List UserServer) := copyUsers s.connected

/-- What `xdr_string` accepts under the bounds of `storage.x`. -/
structure ConnectArguments.Decoded (a : ConnectArguments) : Prop where
  name : a.name.length ≤ 256 ∧ nul ∉ a.name
  port : a.port.length ≤ 7 ∧ nul ∉ a.port
  ip : a.ip.length ≤ 16 ∧ nul ∉ a.ip

/-- The three strings leave room for their NULs. -/
structure ConnectArguments.Short (a : ConnectArguments) : Prop where
  name : a.name.length < maxSize
  port : a.port.length < portSize
  ip : a.ip.length < ipSize

/-- The block holds the record, each string with its NUL in its own array. -/
structure Encodes (b : Block) (d : UserServerData) : Prop where
  name : stringAt nul 0 b.bytes = some d.name ∧ d.name.length < maxSize
  port : stringAt nul maxSize b.bytes = some d.port ∧ d.port.length < portSize
  ipAddress : stringAt nul (maxSize + portSize) b.bytes = some d.ipAddress ∧
    d.ipAddress.length < ipSize

/-- The block holds some record. -/
def Block.Listable (b : Block) : Prop := ∃ d, Encodes b d

/-! ## The blocks as records -/

section Records

variable {c : SysCalls} {a : ConnectArguments} {tmp b : Block} {d : UserServerData}
  {blocks : List Block} {list : List UserServerData}

theorem Buffer.strcpy_of_le {size offset : Nat} {s : Bytes} (b : Buffer size)
    (h : offset + s.length + 1 ≤ size) : ∃ b', b.strcpy offset s = some b' := by
  have hle : offset + s.length + 1 ≤ b.bytes.length := by
    rw [b.length_bytes]
    exact h
  have hcopied : strcpyAt nul offset s b.bytes = some _ := strcpyAt_eq_some_iff.2 ⟨hle, rfl⟩
  exact ⟨⟨_, (length_strcpyAt hcopied).trans b.length_bytes⟩, Buffer.strcpy_eq_some_iff.2 hcopied⟩

/-- Fields that fit stand each in its own array. -/
theorem copyTo_encodes (h : a.Decoded) (hs : a.Short) (tmp : Block) :
    ∃ b, a.copyTo tmp = some b ∧ Encodes b ⟨a.name, a.port, a.ip⟩ := by
  have hname := hs.name
  have hport := hs.port
  have hip := hs.ip
  obtain ⟨b₁, h₁⟩ : ∃ b₁, tmp.strcpy 0 a.name = some b₁ := tmp.strcpy_of_le (by omega)
  obtain ⟨b₂, h₂⟩ : ∃ b₂, b₁.strcpy maxSize a.port = some b₂ := b₁.strcpy_of_le (by omega)
  obtain ⟨b₃, h₃⟩ : ∃ b₃, b₂.strcpy (maxSize + portSize) a.ip = some b₃ :=
    b₂.strcpy_of_le (by omega)
  refine ⟨b₃, ?_, ⟨?_, hname⟩, ⟨?_, hport⟩, ⟨?_, hip⟩⟩
  · unfold ConnectArguments.copyTo
    simp only [h₁, h₂, h₃, Option.bind_eq_bind, Option.bind_some]
  all_goals
    rw [Buffer.strcpy_eq_some_iff] at h₁ h₂ h₃
    dsimp only
  · have hcopied := stringAt_strcpyAt h.name.2 h₁
    have hkept := stringAt_strcpyAt_of_le h₂ hcopied (by omega)
    exact stringAt_strcpyAt_of_le h₃ hkept (by omega)
  · have hcopied := stringAt_strcpyAt h.port.2 h₂
    exact stringAt_strcpyAt_of_le h₃ hcopied (by omega)
  · exact stringAt_strcpyAt h.ip.2 h₃

theorem copyOut_eq_some_iff {size offset : Nat} {s : Bytes} :
    b.copyOut size offset = some s ↔ stringAt nul offset b.bytes = some s ∧ s.length < size := by
  unfold Block.copyOut
  rw [Option.bind_eq_bind, Option.bind_eq_some_iff]
  constructor
  · rintro ⟨s', hs', hfit⟩
    split at hfit
    · obtain rfl := Option.some.inj hfit
      exact ⟨hs', by omega⟩
    · cases hfit
  · rintro ⟨hs, hlt⟩
    exact ⟨s, hs, if_pos (by omega)⟩

/-- A block can be copied for the list exactly if it holds a record, and as that record. -/
theorem copyUser_eq_some_iff {u : UserServer} :
    b.copyUser = some u ↔ Encodes b ⟨u.name, u.port, u.ip⟩ := by
  unfold Block.copyUser
  simp only [Option.bind_eq_bind, Option.bind_eq_some_iff, copyOut_eq_some_iff]
  constructor
  · rintro ⟨name, hname, ip, hip, port, hport, hu⟩
    obtain rfl := Option.some.inj hu
    exact ⟨hname, hport, hip⟩
  · intro h
    exact ⟨u.name, h.name, u.ip, h.ipAddress, u.port, h.port, rfl⟩

theorem copyUsers_eq_some_iff {users : List UserServer} :
    copyUsers blocks = some users ↔
      List.Forall₂ Encodes blocks (users.map fun u => ⟨u.name, u.port, u.ip⟩) := by
  induction blocks generalizing users with
  | nil =>
    cases users with
    | nil => simp [copyUsers]
    | cons u users => simp [copyUsers]
  | cons b blocks ih =>
    unfold copyUsers
    simp only [Option.bind_eq_bind, Option.bind_eq_some_iff, copyUser_eq_some_iff]
    cases users with
    | nil =>
      simp only [List.map_nil, List.forall₂_nil_right_iff, reduceCtorEq, iff_false]
      rintro ⟨u, -, us, -, heq⟩
      cases heq
    | cons u users =>
      rw [List.map_cons, List.forall₂_cons, ← ih]
      constructor
      · rintro ⟨u', hu, us, hus, heq⟩
        obtain ⟨rfl, rfl⟩ := List.cons.inj (Option.some.inj heq)
        exact ⟨hu, hus⟩
      · rintro ⟨hu, hus⟩
        exact ⟨u, hu, users, hus, rfl⟩

theorem findElementByname.blocks_eq (h : List.Forall₂ Encodes blocks list) {data : Bytes}
    (hdata : nul ∉ data) :
    findElementByname.blocks blocks data = findElementByname list data := by
  induction h with
  | nil => rfl
  | @cons b d blocks list hb _ ih =>
    have hiff : strcmpEq nul b.bytes (data ++ [nul]) = true ↔ d.name = data := by
      rw [strcmpEq_iff_stringAt hdata, hb.name.1, Option.some.injEq]
    unfold findElementByname.blocks findElementByname
    by_cases hd : d.name = data
    · rw [if_pos (hiff.2 hd), if_pos hd]
    · rw [if_neg (mt hiff.1 hd), if_neg hd, ih]

theorem exists_records (h : ∀ b ∈ blocks, b.Listable) :
    ∃ list, List.Forall₂ Encodes blocks list := by
  induction blocks with
  | nil => exact ⟨[], .nil⟩
  | cons b blocks ih =>
    obtain ⟨d, hd⟩ := h b List.mem_cons_self
    obtain ⟨list, hlist⟩ := ih fun b' hb' => h b' (List.mem_cons_of_mem _ hb')
    exact ⟨d :: list, .cons hd hlist⟩

end Records

/-! ## The blocks do what the strings do -/

/-- The same tree, and a record in each block. -/
structure BlockStore.Refines (s : BlockStore) (r : Store) : Prop where
  tree : s.tree = r.tree
  connected : List.Forall₂ Encodes s.connected r.connected

section Refines

variable {c : SysCalls} {a : ConnectArguments} {s : BlockStore} {r : Store}

theorem connectUserRpc1Svc.blocks_refines (h : s.Refines r) (ha : a.Decoded) (hs : a.Short)
    (tmp : Block) :
    ∃ s', connectUserRpc1Svc.blocks c a tmp s = ((connectUserRpc1Svc c a r).1, some s') ∧
      s'.Refines (connectUserRpc1Svc c a r).2 := by
  unfold connectUserRpc1Svc.blocks connectUserRpc1Svc
  rw [h.tree, findElementByname.blocks_eq h.connected ha.name.2]
  by_cases hreg : isusrRegistered c r.tree a.name = 0
  · rw [if_pos hreg, if_pos hreg]
    exact ⟨s, rfl, h⟩
  · rw [if_neg hreg, if_neg hreg]
    by_cases hfound : findElementByname r.connected a.name ≠ 0
    · rw [if_pos hfound, if_pos hfound]
      exact ⟨s, rfl, h⟩
    · rw [if_neg hfound, if_neg hfound]
      obtain ⟨b, hb, henc⟩ := copyTo_encodes ha hs tmp
      rw [hb]
      exact ⟨_, rfl, rfl, List.rel_append h.connected (.cons henc .nil)⟩

theorem listUsers1Svc.blocks_refines (h : s.Refines r) :
    listUsers1Svc.blocks s = some (listUsers1Svc true r) := by
  unfold listUsers1Svc.blocks
  rw [copyUsers_eq_some_iff]
  unfold listUsers1Svc getElements
  simpa using h.connected

theorem listable_of_copyUsers {blocks : List Block} {users : List UserServer}
    (h : copyUsers blocks = some users) : ∀ b ∈ blocks, b.Listable := by
  rw [copyUsers_eq_some_iff] at h
  generalize users.map _ = list at h
  induction h with
  | nil => exact fun _ hb => absurd hb List.not_mem_nil
  | cons henc _ ih =>
    intro b hb
    rcases List.mem_cons.1 hb with rfl | hb
    · exact ⟨_, henc⟩
    · exact ih b hb

/-- A listed user is in one of the blocks. -/
theorem encodes_of_mem_copyUsers {blocks : List Block} {users : List UserServer} {u : UserServer}
    (h : copyUsers blocks = some users) (hu : u ∈ users) :
    ∃ b ∈ blocks, Encodes b ⟨u.name, u.port, u.ip⟩ := by
  rw [copyUsers_eq_some_iff] at h
  have hmem := List.mem_map_of_mem (f := fun u => (⟨u.name, u.port, u.ip⟩ : UserServerData)) hu
  obtain ⟨i, hi⟩ := List.getElem?_of_mem hmem
  obtain ⟨hlt, hget⟩ := List.getElem?_eq_some_iff.1 hi
  have hlt' : i < blocks.length := by
    rw [h.length_eq]
    exact hlt
  have henc := h.get hlt' hlt
  simp only [List.get_eq_getElem, hget] at henc
  exact ⟨blocks[i], List.getElem_mem hlt', henc⟩

/-- CONNECT answers 0 and writes only to its block, the name is found, and the list has the
record. -/
def Recorded (c : SysCalls) (a : ConnectArguments) (tmp : Block) (s : BlockStore) : Prop :=
  ∃ s' users, connectUserRpc1Svc.blocks c a tmp s = (0, some s') ∧
    findElementByname.blocks s'.connected a.name = 1 ∧ listUsers1Svc.blocks s' = some users ∧
    (⟨a.name, a.port, a.ip⟩ : UserServer) ∈ users

theorem recorded_of_short {tmp : Block} (ha : a.Decoded)
    (hreg : isusrRegistered c s.tree a.name ≠ 0)
    (hnew : findElementByname.blocks s.connected a.name = 0) (hs : a.Short)
    (hlist : ∀ b ∈ s.connected, b.Listable) : Recorded c a tmp s := by
  obtain ⟨list, hrecords⟩ := exists_records hlist
  have href : s.Refines ⟨s.tree, list⟩ := ⟨rfl, hrecords⟩
  obtain ⟨s', hconnect, href'⟩ := connectUserRpc1Svc.blocks_refines (c := c) href ha hs tmp
  rw [findElementByname.blocks_eq hrecords ha.name.2, findElementByname_eq_zero_iff] at hnew
  rcases connectUserRpc1Svc_cases c ⟨s.tree, list⟩ a with ⟨-, -, heq⟩ | ⟨hno | hno, -⟩
  · rw [heq] at hconnect href'
    refine ⟨s', _, hconnect, ?_, listUsers1Svc.blocks_refines href', ?_⟩
    · rw [findElementByname.blocks_eq href'.connected ha.name.2, findElementByname_eq, if_pos]
      simp
    · simp [listUsers1Svc, getElements, addElement]
  · exact absurd hno hreg
  · exact absurd hno hnew

theorem short_of_recorded {tmp : Block} (hreg : isusrRegistered c s.tree a.name ≠ 0)
    (hnew : findElementByname.blocks s.connected a.name = 0) (h : Recorded c a tmp s) :
    a.Short ∧ ∀ b ∈ s.connected, b.Listable := by
  obtain ⟨s', users, hconnect, -, hlist, hmem⟩ := h
  constructor
  · obtain ⟨b, -, henc⟩ := encodes_of_mem_copyUsers hlist hmem
    exact ⟨henc.name.2, henc.port.2, henc.ipAddress.2⟩
  · have hall := listable_of_copyUsers hlist
    unfold connectUserRpc1Svc.blocks at hconnect
    rw [if_neg hreg, if_neg (not_not.2 hnew), Prod.mk.injEq, Option.map_eq_some_iff] at hconnect
    obtain ⟨-, data, -, rfl⟩ := hconnect
    intro b hb
    exact hall b (List.mem_append_left _ hb)

/-- **What CONNECT stores is found and listed unchanged exactly if the three strings leave room for
their NULs**, and the records before it do as well. -/
theorem connect_recorded_iff {tmp : Block} (ha : a.Decoded)
    (hreg : isusrRegistered c s.tree a.name ≠ 0)
    (hnew : findElementByname.blocks s.connected a.name = 0) :
    Recorded c a tmp s ↔ a.Short ∧ ∀ b ∈ s.connected, b.Listable :=
  ⟨short_of_recorded hreg hnew, fun h => recorded_of_short ha hreg hnew h.1 h.2⟩

/-- A registered user, and nobody connected. -/
def aliceBlocks : BlockStore :=
  ⟨((posix []).mkdir usersTree (userPath (cstring "alice"))).getD .empty, []⟩

def zeroBlock : Block := Buffer.zeros _

def aliceArguments : ConnectArguments := ⟨cstring "alice", cstring "4200", cstring "127.0.0.1"⟩

theorem alice_recorded : Recorded (posix []) aliceArguments zeroBlock aliceBlocks :=
  (connect_recorded_iff ⟨by decide, by decide, by decide⟩ (by decide) (by decide)).2
    ⟨⟨by decide, by decide, by decide⟩, fun _ hb => absurd hb List.not_mem_nil⟩

/-- A port of seven characters. -/
def longPort : ConnectArguments := ⟨cstring "alice", cstring "0065535", cstring "127.0.0.1"⟩

/-- The address takes the NUL of the port away, and the port read from the block is both. -/
theorem longPort_lost :
    longPort.Decoded ∧ isusrRegistered (posix []) aliceBlocks.tree longPort.name ≠ 0 ∧
      findElementByname.blocks aliceBlocks.connected longPort.name = 0 ∧
      (connectUserRpc1Svc.blocks (posix []) longPort zeroBlock aliceBlocks).1 = 0 ∧
      ((longPort.copyTo zeroBlock).bind fun b => stringAt nul maxSize b.bytes) =
        some (cstring "0065535127.0.0.1") ∧
      ¬ Recorded (posix []) longPort zeroBlock aliceBlocks := by
  refine ⟨⟨by decide, by decide, by decide⟩, by decide, by decide, by decide, by decide +kernel,
    fun h => ?_⟩
  have hshort := (short_of_recorded (by decide) (by decide) h).1
  exact absurd hshort.port (by decide)

end Refines

end DistributedSystems.Lab
