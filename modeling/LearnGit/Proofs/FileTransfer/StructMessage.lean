import LearnGit.FileTransfer.StructMessage

/-!
# `LearnGit.Proofs.FileTransfer.StructMessage`: what arrives of a file sent in structures

The server writes as many bytes as `read` returned, and not the `mesg_len` bytes of the block,
and it takes whatever `read` left in `msgStore` for a whole structure. `struct_transfer_iff`:
when every read returns one structure, only an empty file arrives, and when the reads can cut
the structures anywhere, only an empty file with a name of one byte does.

A file that is not empty comes out too long, since a structure is longer than its block
(`serve_whole`). A name of two bytes can be cut after the first, and then the file of that name
is never opened (`serve_prefix`). For the empty file with a short name, `EmptyRun` is what holds
after any number of bytes of its two structures.
-/

set_option autoImplicit false

namespace LearnGit.Proofs.FileTransfer

open LearnGit.Lib
open LearnGit.FileTransfer
open LearnGit.FileTransfer.StructMessage

/-! ### Statement -/

/-- A file name that fits `fileName`. -/
structure FileName where
  bytes : Path
  pos : 0 < bytes.length
  short : bytes.length < FILE_NAME
  noNul : (0 : Byte) ∉ bytes
  noSlash : SLASH ∉ bytes

/-- The bytes of these structures, one after the other. -/
def stream (ms : List Mymesg) : List Byte := ms.flatMap Mymesg.bytes

/-- A way in which these bytes can arrive. -/
structure IsCut (size : Nat) (bytes : List Byte) (reads : List (List Byte)) : Prop where
  flatten : reads.flatten = bytes
  nonempty : ∀ r ∈ reads, r ≠ []
  fits : ∀ r ∈ reads, r.length ≤ size

/-- The server ends with this content in the file of this name. -/
def Arrives (beyond : Nat → Byte) (files : Files) (reads : List (List Byte)) (name : Path)
    (content : List Byte) : Prop :=
  ∃ s, serve beyond files reads = .ok s ∧ s.files name = some content

/-- The file arrives however its bytes are cut, when no call fails. -/
def AlwaysArrives (argv1 : Path) (content : List Byte) : Prop :=
  ∀ name ms, splitStr argv1 = some name → client argv1 content = some ms →
    ∀ beyond files reads, IsCut MESG_SIZE (stream ms) reads →
      serve beyond files reads = .error .callFailed ∨ Arrives beyond files reads name content

/-! ### The fields of a structure -/

/-- The fields of a buffer that is put together like a structure. -/
theorem fields_append {a b c d e : List Byte} (ha : a.length = 8) (hb : b.length = 8)
    (hc : c.length = MAXDATAGRAMLENTH) (hd : d.length = 8) :
    mesgType (a ++ b ++ c ++ d ++ e) = leNat a ∧ mesgLen (a ++ b ++ c ++ d ++ e) = leNat b ∧
      fileName (a ++ b ++ c ++ d ++ e) = cStr e := by
  have hfront : (a ++ b ++ c ++ d).length = NAME_OFFSET := by
    simp only [List.length_append, ha, hb, hc, hd, MAXDATAGRAMLENTH, NAME_OFFSET]
  refine ⟨?_, ?_, ?_⟩
  · rw [mesgType, ← ha]
    simp only [List.append_assoc, List.take_left]
  · rw [mesgLen, ← ha]
    simp only [List.append_assoc, List.drop_left]
    rw [ha, ← hb, List.take_left]
  · rw [fileName, ← hfront, List.drop_left]

/-- A message whose parts fit has the size of the structure. -/
theorem bytes_length {m : Mymesg} (hdata : m.mesgData.length ≤ MAXDATAGRAMLENTH)
    (hname : m.fileName.length ≤ FILE_NAME) : m.bytes.length = MESG_SIZE := by
  simp only [Mymesg.bytes, List.length_append, leBytes_length]
  rw [padTo_length hdata, padTo_length hname]
  rfl

/-- The fields of a structure that was read as a whole. -/
theorem fields_bytes {m : Mymesg} (hdata : m.mesgData.length ≤ MAXDATAGRAMLENTH)
    (htype : m.mesgType < 256 ^ 8) (hlen : m.mesgLen < 256 ^ 8) :
    mesgType m.bytes = m.mesgType ∧ mesgLen m.bytes = m.mesgLen ∧
      fileName m.bytes = cStr (padTo FILE_NAME m.fileName) := by
  have h := fields_append (e := padTo FILE_NAME m.fileName) (leBytes_length 8 m.mesgType)
    (leBytes_length 8 m.mesgLen) (padTo_length hdata) (leBytes_length 8 m.fileLength)
  rw [leNat_leBytes 8 _ htype, leNat_leBytes 8 _ hlen] at h
  exact h

/-- A text without a NUL is read back out of its zeros. -/
theorem cStr_padTo {n : Nat} {s : List Byte} (hnul : (0 : Byte) ∉ s) (hlen : s.length < n) :
    cStr (padTo n s) = s := by
  obtain ⟨k, hk⟩ : ∃ k, n - s.length = k + 1 := ⟨n - s.length - 1, by omega⟩
  rw [padTo, hk, List.replicate_succ]
  exact cStr_append_zero hnul _

/-! ### What a read does -/

section Reads

variable (beyond : Nat → Byte) {s : Server} {bytes : List Byte}

/-- What `write` takes from the memory at `mesg_data`. -/
def written (beyond : Nat → Byte) (store : List Byte) (n : Nat) : List Byte :=
  ((store ++ (List.range DATA_OFFSET).map beyond).drop DATA_OFFSET).take n

/-- A write of at most the size of the structure has that many bytes. -/
theorem written_length {store : List Byte} (hstore : store.length = MESG_SIZE) {n : Nat}
    (hn : n ≤ MESG_SIZE) : (written beyond store n).length = n := by
  rw [written, List.length_take, List.length_drop, List.length_append, hstore, List.length_map,
    List.length_range]
  omega

/-- The server's read of a name opens its file. -/
theorem serverRead_open (hc : s.connected = true)
    (htype : mesgType (readInto s.msgStore bytes) = 0) {name : Path}
    (hname : fileName (readInto s.msgStore bytes) = name) (hne : name ≠ [])
    (hlen : name.length ≤ RECORD_NAME) :
    serverRead beyond s bytes = .ok { s with
      msgStore := readInto s.msgStore bytes
      files := (s.files.openTrunc name).1
      fileDesc := some ⟨name, 0⟩ } := by
  have hlong : ¬RECORD_NAME < name.length := by omega
  simp only [serverRead, openFile, hc, htype, hname, hne, hlong, Bool.not_true,
    Bool.false_eq_true, if_false, if_true]
  rfl

/-- Without a name, `fopen` fails. -/
theorem serverRead_unnamed (hc : s.connected = true)
    (htype : mesgType (readInto s.msgStore bytes) = 0)
    (hname : fileName (readInto s.msgStore bytes) = []) :
    serverRead beyond s bytes = .error .callFailed := by
  simp only [serverRead, openFile, hc, htype, hname, Bool.not_true, Bool.false_eq_true, if_false,
    if_true]

/-- The server's read of a block writes to the open file. -/
theorem serverRead_write (hc : s.connected = true)
    (htype : mesgType (readInto s.msgStore bytes) = 1)
    (hlen : mesgLen (readInto s.msgStore bytes) ≠ 0) {fd : Fd Path} (hfd : s.fileDesc = some fd) :
    serverRead beyond s bytes = .ok { s with
      msgStore := readInto s.msgStore bytes
      files := (s.files.write fd (written beyond (readInto s.msgStore bytes) bytes.length)).1
      fileDesc := some { fd with offset :=
        fd.offset + (written beyond (readInto s.msgStore bytes) bytes.length).length } } := by
  have hne : (1 : Nat) ≠ 0 := by decide
  simp only [serverRead, hc, htype, hlen, writeData, hfd, Bool.not_true, Bool.false_eq_true,
    if_false, if_true, if_neg hne]
  rfl

/-- The server's read of an empty block closes the file. -/
theorem serverRead_close (hc : s.connected = true)
    (htype : mesgType (readInto s.msgStore bytes) = 1)
    (hlen : mesgLen (readInto s.msgStore bytes) = 0) {fd : Fd Path} (hfd : s.fileDesc = some fd) :
    serverRead beyond s bytes = .ok { s with
      msgStore := readInto s.msgStore bytes, fileDesc := none, connected := false } := by
  have hne : (1 : Nat) ≠ 0 := by decide
  simp only [serverRead, hc, htype, hlen, hfd, Bool.not_true, Bool.false_eq_true, if_false,
    if_true, if_neg hne]

/-- A message of another type changes nothing but the buffer. -/
theorem serverRead_other (hc : s.connected = true)
    (hzero : mesgType (readInto s.msgStore bytes) ≠ 0)
    (hone : mesgType (readInto s.msgStore bytes) ≠ 1) :
    serverRead beyond s bytes = .ok { s with msgStore := readInto s.msgStore bytes } := by
  simp only [serverRead, hc, hzero, hone, Bool.not_true, Bool.false_eq_true, if_false]

/-- A connection that is closed stays so. -/
theorem foldlM_closed (hc : s.connected = false) (reads : List (List Byte)) :
    reads.foldlM (serverRead beyond) s = .ok s := by
  induction reads with
  | nil => rfl
  | cons bytes reads ih =>
    have hread : serverRead beyond s bytes = .ok s := by
      simp only [serverRead, hc, Bool.not_false, if_true]
    rw [List.foldlM_cons, hread]
    exact ih

end Reads

/-! ### Whole structures -/

/-- The blocks have room for the file, and none of them is empty or too long. -/
theorem freadBlocks_spec (rounds : Nat) : ∀ rest : List Byte, rest.length ≤ rounds →
    rest.length ≤ MAXLINE * (freadBlocks rounds rest).length ∧
      ∀ block ∈ freadBlocks rounds rest, block ≠ [] ∧ block.length ≤ MAXLINE := by
  induction rounds with
  | zero =>
    intro rest hlen
    have hrest : rest = [] := List.length_eq_zero_iff.mp (by omega)
    rw [hrest]
    exact ⟨Nat.zero_le _, fun block hb => nomatch hb⟩
  | succ rounds ih =>
    intro rest hlen
    rw [freadBlocks]
    split
    · rename_i hrest
      rw [hrest]
      exact ⟨Nat.zero_le _, fun block hb => nomatch hb⟩
    · rename_i hrest
      have hpos := List.length_pos_iff.mpr hrest
      have hdrop : (rest.drop MAXLINE).length ≤ rounds := by
        rw [List.length_drop, MAXLINE]
        omega
      obtain ⟨hroom, hblocks⟩ := ih (rest.drop MAXLINE) hdrop
      refine ⟨?_, ?_⟩
      · rw [List.length_drop] at hroom
        rw [List.length_cons, Nat.mul_succ]
        omega
      · intro block hb
        rcases List.mem_cons.mp hb with rfl | hb
        · refine ⟨?_, List.length_take_le _ _⟩
          rw [Ne, List.take_eq_nil_iff, MAXLINE]
          rintro (h | h)
          · exact absurd h (by decide)
          · exact hrest h
        · exact hblocks block hb

/-- The file of this name is open at its end. -/
structure OpenAt (s : Server) (name : Path) (content : List Byte) : Prop where
  connected : s.connected = true
  store : s.msgStore.length = MESG_SIZE
  fileDesc : s.fileDesc = some ⟨name, content.length⟩
  files : s.files name = some content

/-- A structure with a block is written as a whole, from its data on. -/
theorem serverRead_block (beyond : Nat → Byte) {s : Server} {name : Path} {content : List Byte}
    (h : OpenAt s name content) {block : List Byte} (hne : block ≠ [])
    (hlen : block.length ≤ MAXLINE) :
    ∃ s' data, serverRead beyond s (dataMesg block).bytes = .ok s' ∧ data.length = MESG_SIZE ∧
      OpenAt s' name (content ++ data) := by
  have hsize : (dataMesg block).bytes.length = MESG_SIZE := bytes_length hlen (Nat.zero_le _)
  have hstore : readInto s.msgStore (dataMesg block).bytes = (dataMesg block).bytes :=
    readInto_of_length (by rw [h.store, hsize])
  have hblock : (dataMesg block).mesgLen < 256 ^ 8 := by
    simp only [dataMesg, MAXLINE] at hlen ⊢
    omega
  obtain ⟨htype, hmesgLen, -⟩ := fields_bytes (m := dataMesg block) hlen (by simp [dataMesg]) hblock
  have hwritten : (written beyond (dataMesg block).bytes (dataMesg block).bytes.length).length
      = MESG_SIZE := by
    rw [written_length beyond hsize (Nat.le_of_eq hsize), hsize]
  rw [← hstore] at htype hmesgLen
  have hread := serverRead_write beyond h.connected htype
    (by rw [hmesgLen]; exact Nat.ne_of_gt (List.length_pos_iff.mpr hne)) h.fileDesc
  rw [hstore] at hread
  refine ⟨_, _, hread, hwritten, h.connected, hsize, ?_, ?_⟩
  · rw [List.length_append]
  · exact FileMap.write_of_offset ⟨name, content.length⟩ h.files rfl _

/-- The blocks make the file longer by a structure each. -/
theorem serverRead_blocks (beyond : Nat → Byte) (blocks : List (List Byte)) :
    ∀ (s : Server) (name : Path) (content : List Byte), OpenAt s name content →
      (∀ block ∈ blocks, block ≠ [] ∧ block.length ≤ MAXLINE) →
      ∃ s' data, (blocks.map fun block => (dataMesg block).bytes).foldlM (serverRead beyond) s
          = .ok s' ∧
        data.length = MESG_SIZE * blocks.length ∧ OpenAt s' name (content ++ data) := by
  induction blocks with
  | nil =>
    intro s name content h _
    exact ⟨s, [], rfl, rfl, by rw [List.append_nil]; exact h⟩
  | cons block blocks ih =>
    intro s name content h hblocks
    obtain ⟨hne, hlen⟩ := hblocks block List.mem_cons_self
    obtain ⟨s₁, data₁, hread, hdata₁, hopen₁⟩ := serverRead_block beyond h hne hlen
    obtain ⟨s₂, data₂, hrun, hdata₂, hopen₂⟩ := ih s₁ name (content ++ data₁) hopen₁
      fun b hb => hblocks b (List.mem_cons_of_mem _ hb)
    refine ⟨s₂, data₁ ++ data₂, ?_, ?_, ?_⟩
    · rw [List.map_cons, List.foldlM_cons, hread]
      exact hrun
    · rw [List.length_append, hdata₁, hdata₂, List.length_cons, Nat.mul_succ]
      omega
    · rw [← List.append_assoc]
      exact hopen₂

/-- The first structure opens the file. -/
theorem serverRead_attribute (beyond : Nat → Byte) (files : Files) (name : FileName)
    (hshort : name.bytes.length ≤ RECORD_NAME) (content : List Byte) :
    ∃ s, serverRead beyond (Server.init files) (attributeMesg name.bytes content).bytes = .ok s ∧
      OpenAt s name.bytes [] := by
  have hname := name.short
  obtain ⟨first, hf⟩ : ∃ first, first = attributeMesg name.bytes content := ⟨_, rfl⟩
  have hsize : first.bytes.length = MESG_SIZE := by
    rw [hf]
    exact bytes_length (Nat.zero_le _) (Nat.le_of_lt hname)
  have hstore : readInto (Server.init files).msgStore first.bytes = first.bytes :=
    readInto_of_length (by rw [Server.init, List.length_replicate, hsize])
  obtain ⟨htype, -, hfile⟩ := fields_bytes (m := first) (by rw [hf]; exact Nat.zero_le _)
    (by rw [hf]; exact Nat.zero_lt_succ _)
    (by rw [hf]; simp only [attributeMesg, FILE_NAME] at hname ⊢; omega)
  have hfirst : fileName (readInto (Server.init files).msgStore first.bytes) = name.bytes := by
    rw [hstore, hfile, hf]
    exact cStr_padTo name.noNul hname
  have hzero : mesgType (readInto (Server.init files).msgStore first.bytes) = 0 := by
    rw [hstore, htype, hf]
    rfl
  rw [← hf]
  refine ⟨_, serverRead_open beyond rfl hzero hfirst (List.ne_nil_of_length_pos name.pos) hshort,
    rfl, ?_, rfl, FileMap.openTrunc_self⟩
  rw [hstore, hsize]

/-- The last one closes it. -/
theorem serverRead_last (beyond : Nat → Byte) {s : Server} {name : Path} {content : List Byte}
    (h : OpenAt s name content) :
    ∃ s', serverRead beyond s (dataMesg []).bytes = .ok s' ∧ s'.files name = some content := by
  have hsize : (dataMesg []).bytes.length = MESG_SIZE :=
    bytes_length (Nat.zero_le _) (Nat.zero_le _)
  have hstore : readInto s.msgStore (dataMesg []).bytes = (dataMesg []).bytes :=
    readInto_of_length (by rw [h.store, hsize])
  obtain ⟨htype, hlen, -⟩ := fields_bytes (m := dataMesg []) (Nat.zero_le _) (by simp [dataMesg])
    (by simp [dataMesg])
  rw [← hstore] at htype hlen
  exact ⟨_, serverRead_close beyond h.connected htype hlen h.fileDesc, h.files⟩

/-- When every read returns a structure, the file gets `MESG_SIZE` bytes for each block. -/
theorem serve_whole (beyond : Nat → Byte) (files : Files) (name : FileName)
    (hshort : name.bytes.length ≤ RECORD_NAME) (content : List Byte) :
    ∃ s data, serve beyond files ((clientMessages name.bytes content).map Mymesg.bytes) = .ok s ∧
      data.length = MESG_SIZE * (freadBlocks content.length content).length ∧
      s.files name.bytes = some data := by
  obtain ⟨-, hblocks⟩ := freadBlocks_spec content.length content (Nat.le_refl _)
  obtain ⟨s₀, hfirst, hopen₀⟩ := serverRead_attribute beyond files name hshort content
  obtain ⟨s₁, data, hrun, hdata, hopen₁⟩ := serverRead_blocks beyond
    (freadBlocks content.length content) s₀ name.bytes [] hopen₀ hblocks
  rw [List.nil_append] at hopen₁
  obtain ⟨s₂, hlast, hfile⟩ := serverRead_last beyond hopen₁
  refine ⟨s₂, data, ?_, hdata, hfile⟩
  rw [serve, clientMessages, List.map_append, List.map_cons, List.map_map, List.cons_append,
    List.foldlM_cons, hfirst]
  show (((freadBlocks content.length content).map fun block => (dataMesg block).bytes)
    ++ [(dataMesg []).bytes]).foldlM (serverRead beyond) s₀ = _
  rw [List.foldlM_append, hrun]
  show [(dataMesg []).bytes].foldlM (serverRead beyond) s₁ = _
  rw [List.foldlM_cons, hlast]
  rfl

/-- A read for each structure is a cut. -/
theorem isCut_whole (name : FileName) (content : List Byte) :
    IsCut MESG_SIZE (stream (clientMessages name.bytes content))
      ((clientMessages name.bytes content).map Mymesg.bytes) := by
  obtain ⟨-, hblocks⟩ := freadBlocks_spec content.length content (Nat.le_refl _)
  have hsize : ∀ m ∈ clientMessages name.bytes content, m.bytes.length = MESG_SIZE := by
    intro m hm
    rw [clientMessages, List.cons_append] at hm
    rcases List.mem_cons.mp hm with rfl | hm
    · exact bytes_length (Nat.zero_le _) (Nat.le_of_lt name.short)
    rcases List.mem_append.mp hm with hm | hm
    · obtain ⟨block, hb, rfl⟩ := List.mem_map.mp hm
      exact bytes_length (hblocks block hb).2 (Nat.zero_le _)
    · rw [List.mem_singleton.mp hm]
      exact bytes_length (Nat.zero_le _) (Nat.zero_le _)
  refine ⟨List.flatMap_def.symm, ?_, ?_⟩
  · intro r hr
    obtain ⟨m, hm, rfl⟩ := List.mem_map.mp hr
    exact List.ne_nil_of_length_pos (by rw [hsize m hm]; decide)
  · intro r hr
    obtain ⟨m, hm, rfl⟩ := List.mem_map.mp hr
    exact Nat.le_of_eq (hsize m hm)

/-- With whole structures, exactly the empty file arrives. -/
theorem whole_arrives_iff (beyond : Nat → Byte) (files : Files) (name : FileName)
    (hshort : name.bytes.length ≤ RECORD_NAME) (content : List Byte) :
    Arrives beyond files ((clientMessages name.bytes content).map Mymesg.bytes) name.bytes content
      ↔ content = [] := by
  obtain ⟨hroom, -⟩ := freadBlocks_spec content.length content (Nat.le_refl _)
  obtain ⟨s, data, hserve, hdata, hfile⟩ := serve_whole beyond files name hshort content
  constructor
  · rintro ⟨s', hserve', hfile'⟩
    rw [hserve] at hserve'
    rw [← Except.ok.inj hserve', hfile] at hfile'
    rw [Option.some.inj hfile'] at hdata
    -- A block has less than half the size of a structure.
    rw [MESG_SIZE] at hdata
    rw [MAXLINE] at hroom
    exact List.length_eq_zero_iff.mp (by omega)
  · rintro rfl
    have hnil : data = [] := by
      refine List.length_eq_zero_iff.mp ?_
      rw [hdata]
      rfl
    exact ⟨s, hserve, by rw [hfile, hnil]⟩

/-! ### A name that is cut -/

/-- `msgStore` when only its first byte has changed since the name was cut after `c`. -/
def cutStore (mesgLen dataLen : List Byte) (c b : Byte) : List Byte :=
  (b :: List.replicate 7 0) ++ mesgLen ++ padTo MAXDATAGRAMLENTH [] ++ dataLen
    ++ (c :: List.replicate 511 0)

/-- The fields of a structure whose name was cut behind its first byte. -/
theorem fields_cutStore {n : Nat} {dataLen : List Byte} {c : Byte} (hlt : n < 256 ^ 8)
    (hdataLen : dataLen.length = 8) (hc : c ≠ 0) (b : Byte) :
    mesgType (cutStore (leBytes 8 n) dataLen c b) = b.toNat ∧
      mesgLen (cutStore (leBytes 8 n) dataLen c b) = n ∧
      fileName (cutStore (leBytes 8 n) dataLen c b) = [c] := by
  obtain ⟨htype, hlen, hname⟩ := fields_append (a := b :: List.replicate 7 0) (b := leBytes 8 n)
    (c := padTo MAXDATAGRAMLENTH []) (d := dataLen) (e := c :: List.replicate 511 0) rfl
    (leBytes_length 8 n) (padTo_length (Nat.zero_le _)) hdataLen
  refine ⟨htype.trans ?_, hlen.trans (leNat_leBytes 8 n hlt), hname.trans ?_⟩
  · rw [leNat, leNat_replicate_zero]
    omega
  · exact cStr_append_zero (s := [c]) (by simpa using hc.symm) _

/-- The server has opened the file `[c]`, and the file `q` is what it was. -/
structure PrefixRun (files : Files) (n : Nat) (dataLen : List Byte) (c : Byte) (q : Path)
    (s : Server) : Prop where
  connected : s.connected = true
  store : ∃ b, s.msgStore = cutStore (leBytes 8 n) dataLen c b
  fileDesc : ∃ fd, s.fileDesc = some fd ∧ fd.path = [c]
  files : s.files q = files q

/-- A read of one byte keeps to the file `[c]`. -/
theorem prefixRun_read (beyond : Nat → Byte) {files : Files} {n : Nat} {dataLen : List Byte}
    {c : Byte} {q : Path} {s : Server} (hn : 0 < n) (hlt : n < 256 ^ 8)
    (hdataLen : dataLen.length = 8) (hc : c ≠ 0) (hq : q ≠ [c])
    (h : PrefixRun files n dataLen c q s) (b : Byte) :
    ∃ s', serverRead beyond s [b] = .ok s' ∧ PrefixRun files n dataLen c q s' := by
  obtain ⟨b₀, hstore⟩ := h.store
  obtain ⟨fd, hfd, hpath⟩ := h.fileDesc
  have hstore' : readInto s.msgStore [b] = cutStore (leBytes 8 n) dataLen c b := by
    rw [hstore]
    rfl
  obtain ⟨htype, hlen, hname⟩ := fields_cutStore hlt hdataLen hc b
  rw [← hstore'] at htype hlen hname
  -- Only the type changes with the byte: the file `[c]` is opened again, written or left alone.
  by_cases hzero : b.toNat = 0
  · refine ⟨_, serverRead_open beyond h.connected (htype.trans hzero) hname (by simp)
      (by simp [RECORD_NAME]), h.connected, ⟨b, hstore'⟩, ⟨_, rfl, rfl⟩, ?_⟩
    exact (FileMap.openTrunc_of_ne hq).trans h.files
  by_cases hone : b.toNat = 1
  · refine ⟨_, serverRead_write beyond h.connected (htype.trans hone) (hlen ▸ Nat.ne_of_gt hn) hfd,
      h.connected, ⟨b, hstore'⟩, ⟨_, rfl, hpath⟩, ?_⟩
    exact (FileMap.write_of_ne (hpath ▸ hq) _).trans h.files
  · refine ⟨_, serverRead_other beyond h.connected (htype ▸ hzero) (htype ▸ hone), h.connected,
      ⟨b, hstore'⟩, ⟨fd, hfd, hpath⟩, h.files⟩

/-- So do reads of one byte each. -/
theorem prefixRun_reads (beyond : Nat → Byte) {files : Files} {n : Nat} {dataLen : List Byte}
    {c : Byte} {q : Path} (hn : 0 < n) (hlt : n < 256 ^ 8) (hdataLen : dataLen.length = 8)
    (hc : c ≠ 0) (hq : q ≠ [c]) (bytes : List Byte) :
    ∀ s, PrefixRun files n dataLen c q s →
      ∃ s', (bytes.map fun b => [b]).foldlM (serverRead beyond) s = .ok s' ∧
        PrefixRun files n dataLen c q s' := by
  induction bytes with
  | nil =>
    intro s h
    exact ⟨s, rfl, h⟩
  | cons b bytes ih =>
    intro s h
    obtain ⟨s₁, hread, h₁⟩ := prefixRun_read beyond hn hlt hdataLen hc hq h b
    obtain ⟨s₂, hrun, h₂⟩ := ih s₁ h₁
    refine ⟨s₂, ?_, h₂⟩
    rw [List.map_cons, List.foldlM_cons, hread]
    exact hrun

/-- The bytes of the first structure that stand before the name. -/
def beforeName (n : Nat) (content : List Byte) : List Byte :=
  (0 :: List.replicate 7 0) ++ leBytes 8 n ++ padTo MAXDATAGRAMLENTH []
    ++ leBytes 8 content.length

/-- The name stands behind 536 bytes. -/
theorem beforeName_length (n : Nat) (content : List Byte) : (beforeName n content).length = 536 := by
  simp only [beforeName, List.length_append, List.length_cons, List.length_replicate,
    leBytes_length]
  rw [padTo_length (Nat.zero_le _)]
  rfl

/-- The stream up to the first byte of the name, and what follows. -/
theorem stream_beforeName {name : Path} {c : Byte} {rest : List Byte} (hname : name = c :: rest)
    (content : List Byte) :
    ∃ tail, stream (clientMessages name content)
      = beforeName (8 + name.length + 1) content ++ c :: tail := by
  refine ⟨rest ++ List.replicate (FILE_NAME - name.length) 0
    ++ stream ((freadBlocks content.length content).map dataMesg ++ [dataMesg []]), ?_⟩
  have hbytes : (attributeMesg name content).bytes
      = beforeName (8 + name.length + 1) content ++ padTo FILE_NAME name := by
    rw [beforeName, show (0 :: List.replicate 7 0 : List Byte) = leBytes 8 0 from
      (leBytes_zero 8).symm]
    rfl
  rw [clientMessages, stream, List.cons_append, List.flatMap_cons, hbytes, padTo, hname]
  simp only [List.append_assoc, List.cons_append]
  rfl

/-- A read up to the first byte of the name leaves a structure with that name alone. -/
theorem readInto_beforeName (files : Files) (n : Nat) (content : List Byte) (c : Byte) :
    readInto (Server.init files).msgStore (beforeName n content ++ [c])
      = cutStore (leBytes 8 n) (leBytes 8 content.length) c 0 := by
  have hdrop : (Server.init files).msgStore.drop (beforeName n content ++ [c]).length
      = List.replicate 511 0 := by
    rw [List.length_append, beforeName_length, Server.init, List.drop_replicate]
    rfl
  rw [readInto, hdrop, cutStore, beforeName, List.append_assoc]
  rfl

/-- A first read that ends behind the first byte of the name opens the file `[c]`. -/
theorem serverRead_cutName (beyond : Nat → Byte) (files : Files) {n : Nat} (hlt : n < 256 ^ 8)
    {c : Byte} (hc : c ≠ 0) {q : Path} (hq : q ≠ [c]) (content : List Byte) :
    ∃ s, serverRead beyond (Server.init files) (beforeName n content ++ [c]) = .ok s ∧
      PrefixRun files n (leBytes 8 content.length) c q s := by
  have hstore := readInto_beforeName files n content c
  obtain ⟨htype, -, hname⟩ := fields_cutStore hlt (leBytes_length 8 content.length) hc 0
  rw [← hstore] at htype hname
  exact ⟨_, serverRead_open beyond rfl htype hname (by simp) (by simp [RECORD_NAME]),
    rfl, ⟨0, hstore⟩, ⟨_, rfl, rfl⟩, FileMap.openTrunc_of_ne hq⟩

/-- A first read and then reads of one byte each are a cut. -/
theorem isCut_cons {size : Nat} (hsize : 1 ≤ size) {front : List Byte} (hne : front ≠ [])
    (hfits : front.length ≤ size) (tail : List Byte) :
    IsCut size (front ++ tail) (front :: tail.map fun b => [b]) := by
  refine ⟨?_, ?_, ?_⟩
  · rw [List.flatten_cons, ← List.flatMap_def, List.flatMap_singleton']
  · intro r hr
    rcases List.mem_cons.mp hr with rfl | hr
    · exact hne
    · obtain ⟨b, -, rfl⟩ := List.mem_map.mp hr
      exact List.cons_ne_nil b []
  · intro r hr
    rcases List.mem_cons.mp hr with rfl | hr
    · exact hfits
    · obtain ⟨b, -, rfl⟩ := List.mem_map.mp hr
      exact hsize

/-- A cut behind the first byte of a longer name: the file of that name stays what it was. -/
theorem serve_prefix (beyond : Nat → Byte) (files : Files) (name : FileName)
    (hlong : name.bytes.length ≠ 1) (content : List Byte) :
    ∃ reads s, IsCut MESG_SIZE (stream (clientMessages name.bytes content)) reads ∧
      serve beyond files reads = .ok s ∧ s.files name.bytes = files name.bytes := by
  have hshort := name.short
  rw [FILE_NAME] at hshort
  obtain ⟨c, rest, hname⟩ : ∃ c rest, name.bytes = c :: rest :=
    List.exists_cons_of_ne_nil (List.ne_nil_of_length_pos name.pos)
  have hc : c ≠ 0 := by
    intro he
    exact name.noNul (by rw [hname, he]; exact List.mem_cons_self)
  have hq : name.bytes ≠ [c] := by
    intro he
    exact hlong (by rw [he]; rfl)
  obtain ⟨tail, htail⟩ := stream_beforeName hname content
  obtain ⟨s₀, hopen, hstart⟩ := serverRead_cutName beyond files
    (n := 8 + name.bytes.length + 1) (by omega) hc hq content
  obtain ⟨s, hrun, hprefix⟩ := prefixRun_reads beyond (by omega) (by omega) (leBytes_length 8 _)
    hc hq tail s₀ hstart
  refine ⟨(beforeName (8 + name.bytes.length + 1) content ++ [c]) :: tail.map fun b => [b], s,
    ?_, ?_, hprefix.files⟩
  · rw [htail, List.append_cons]
    refine isCut_cons (by decide) (by simp) ?_ tail
    rw [List.length_append, beforeName_length, List.length_singleton, MESG_SIZE]
    omega
  · rw [serve, List.foldlM_cons, hopen]
    exact hrun

/-! ### The empty file with a name of one byte -/

/-- The bytes of the two structures: the length of the name with its NUL and of a `long`, the
name, the type of the second structure, and zeros. -/
def emptyStream (c : Byte) : List Byte :=
  List.replicate 8 0 ++ 10 :: (List.replicate 527 0 ++ c :: (List.replicate 511 0 ++
    1 :: List.replicate 1047 0))

/-- The stream of the empty file. -/
theorem stream_empty (c : Byte) : stream (clientMessages [c] []) = emptyStream c := by
  have hfirst : (attributeMesg [c] []).bytes = List.replicate 8 0 ++ (10 :: List.replicate 7 0)
      ++ List.replicate 512 0 ++ List.replicate 8 0 ++ (c :: List.replicate 511 0) := by
    rw [← leBytes_zero 8, show (10 :: List.replicate 7 0 : List Byte) = leBytes 8 10 by decide]
    rfl
  have hsecond : (dataMesg []).bytes = (1 :: List.replicate 7 0) ++ List.replicate 8 0
      ++ List.replicate 512 0 ++ List.replicate 8 0 ++ List.replicate 512 0 := by
    rw [← leBytes_zero 8, show (1 :: List.replicate 7 0 : List Byte) = leBytes 8 1 by decide]
    rfl
  have hstream : stream (clientMessages [c] [])
      = (attributeMesg [c] []).bytes ++ ((dataMesg []).bytes ++ []) := rfl
  rw [hstream, hfirst, hsecond, emptyStream]
  simp only [List.append_assoc, List.cons_append, List.append_nil,
    List.replicate_append_replicate, Nat.reduceAdd]

/-- The values of zeros, a byte and what is behind it. -/
theorem getD_zeros_append (k : Nat) (b : Byte) (l : List Byte) (i : Nat) :
    (List.replicate k 0 ++ b :: l).getD i 0
      = if i < k then 0 else if i = k then b else l.getD (i - k - 1) 0 := by
  split
  · rename_i h
    rw [List.getD_append _ _ _ _ (by rw [List.length_replicate]; exact h)]
    rw [List.getD_eq_getElem?_getD, List.getElem?_replicate_of_lt h]
    rfl
  · rename_i h
    rw [List.getD_append_right _ _ _ _ (by rw [List.length_replicate]; omega),
      List.length_replicate]
    split
    · rename_i he
      rw [he, Nat.sub_self, List.getD_cons_zero]
    · obtain ⟨j, hj⟩ : ∃ j, i - k = j + 1 := ⟨i - k - 1, by omega⟩
      rw [hj, List.getD_cons_succ]
      rfl

/-- The four places where the bytes are not zero. -/
theorem getD_emptyStream (c : Byte) (i : Nat) :
    (emptyStream c).getD i 0
      = if i = 8 then 10 else if i = 536 then c else if i = 1048 then 1 else 0 := by
  have hlast : ∀ j, (List.replicate 1047 (0 : Byte)).getD j 0 = 0 := by
    intro j
    rw [List.getD_eq_getElem?_getD, List.getElem?_replicate]
    split <;> rfl
  rw [emptyStream, getD_zeros_append, getD_zeros_append, getD_zeros_append, hlast]
  repeat' split
  all_goals first | rfl | omega

/-- What holds after `m` bytes, unless a call has failed. -/
structure EmptyRun (c : Byte) (m : Nat) (s : Server) : Prop where
  store : s.msgStore.length = MESG_SIZE
  connected : s.connected = true
  fileDesc : ∃ fd, s.fileDesc = some fd ∧ fd.path = [c]
  name : s.msgStore.getD NAME_OFFSET 0 = c ∨ s.msgStore.getD NAME_OFFSET 0 = 0
  afterName : s.msgStore.getD (NAME_OFFSET + 1) 0 = 0
  /-- Before the second structure, only the lowest byte of `mesg_len` is not zero. -/
  mesgLen : m ≤ 1048 → ∀ i, 9 ≤ i → i < 16 → s.msgStore.getD i 0 = 0
  /-- What was written is cut off again by the next read. -/
  files : s.files [c] = some [] ∨ (1048 < m ∧ m ≤ 1056 ∧
    s.msgStore.getD 0 0 = 1 ∧ ∀ i, 1 ≤ i → i < 8 → s.msgStore.getD i 0 = 0)

/-- The string `fileName` is the name or empty. -/
theorem EmptyRun.fileName_cases {c : Byte} (hc : c ≠ 0) {store : List Byte}
    (hname : store.getD NAME_OFFSET 0 = c ∨ store.getD NAME_OFFSET 0 = 0)
    (hafter : store.getD (NAME_OFFSET + 1) 0 = 0) :
    store.getD NAME_OFFSET 0 = c ∧ fileName store = [c] ∨ fileName store = [] := by
  have hget : ∀ i, (store.drop NAME_OFFSET).getD i 0 = store.getD (NAME_OFFSET + i) 0 := by
    intro i
    rw [List.getD_eq_getElem?_getD, List.getD_eq_getElem?_getD, List.getElem?_drop]
  rcases hname with hname | hname
  · refine Or.inl ⟨hname, ?_⟩
    rw [fileName, cStr_of_getD_one, hget, Nat.add_zero, hname]
    · rw [hget, Nat.add_zero, hname]
      exact hc
    · rw [hget, hafter]
  · right
    rw [fileName, cStr_of_getD_zero]
    rw [hget, Nat.add_zero, hname]

section EmptyReads

variable {c : Byte} {m : Nat} {s : Server} {bytes : List Byte}

/-- The bytes of the stream behind the name, when `m` bytes were read before. -/
def ReadAt (m : Nat) (bytes : List Byte) : Prop :=
  ∀ i < bytes.length, bytes.getD i 0 = if m + i = 1048 then 1 else 0

/-- What the buffer holds behind a read of the stream's rest. -/
theorem ReadAt.getD_readInto (hbytes : ReadAt m bytes) (store : List Byte) (i : Nat) :
    (readInto store bytes).getD i 0
      = if i < bytes.length then (if m + i = 1048 then 1 else 0) else store.getD i 0 := by
  rw [Lib.getD_readInto]
  split
  · rename_i hi
    exact hbytes i hi
  · rfl

/-- The parts of the invariant that a read keeps whatever the type is. -/
theorem EmptyRun.store_after (h : EmptyRun c m s) (hm : 537 ≤ m)
    (hfits : bytes.length ≤ MESG_SIZE) (hbytes : ReadAt m bytes) :
    (readInto s.msgStore bytes).length = MESG_SIZE ∧
      ((readInto s.msgStore bytes).getD NAME_OFFSET 0 = c ∨
        (readInto s.msgStore bytes).getD NAME_OFFSET 0 = 0) ∧
      (readInto s.msgStore bytes).getD (NAME_OFFSET + 1) 0 = 0 ∧
      (m + bytes.length ≤ 1048 →
        ∀ i, 9 ≤ i → i < 16 → (readInto s.msgStore bytes).getD i 0 = 0) := by
  refine ⟨?_, ?_, ?_, ?_⟩
  · rw [readInto_length (by rw [h.store]; exact hfits), h.store]
  · rw [hbytes.getD_readInto]
    split
    · right
      rw [if_neg (by rw [NAME_OFFSET]; omega)]
    · exact h.name
  · rw [hbytes.getD_readInto]
    split
    · rw [if_neg (by rw [NAME_OFFSET]; omega)]
    · exact h.afterName
  · intro hle i hi hi'
    rw [hbytes.getD_readInto]
    split
    · rw [if_neg (by omega)]
    · exact h.mesgLen (by omega) i hi hi'

/-- Only the first byte of the second structure is 1. -/
theorem ReadAt.start_of_type_one (hbytes : ReadAt m bytes) (hne : bytes ≠ []) {store : List Byte}
    (hfirst : (readInto store bytes).getD 0 0 = 1) : m = 1048 := by
  rw [hbytes.getD_readInto, if_pos (List.length_pos_iff.mpr hne)] at hfirst
  by_contra hm
  rw [if_neg (by omega)] at hfirst
  exact absurd hfirst (by decide)

/-- With the ninth byte of the second structure, `mesg_len` would be zero. -/
theorem EmptyRun.short_of_mesgLen (h : EmptyRun c 1048 s) (hbytes : ReadAt 1048 bytes)
    (hlen : StructMessage.mesgLen (readInto s.msgStore bytes) ≠ 0) : bytes.length ≤ 8 := by
  by_contra hlong
  refine hlen (leNat_take_eq_zero fun i hi => ?_)
  rw [List.getD_eq_getElem?_getD, List.getElem?_drop, ← List.getD_eq_getElem?_getD,
    hbytes.getD_readInto]
  split
  · rw [if_neg (by omega)]
  · exact h.mesgLen (Nat.le_refl _) (8 + i) (by omega) (by omega)

/-- After a read that makes the type another than 0, the file is empty: behind the first byte of
the second structure there are only zeros. -/
theorem EmptyRun.files_of_type_ne_zero (h : EmptyRun c m s) (hne : bytes ≠ [])
    (hbytes : ReadAt m bytes) (hzero : mesgType (readInto s.msgStore bytes) ≠ 0) :
    s.files [c] = some [] := by
  have hpos := List.length_pos_iff.mpr hne
  rcases h.files with hfiles | ⟨hlt, -, -, htail⟩
  · exact hfiles
  · refine absurd (leNat_take_eq_zero fun i hi => ?_) hzero
    rw [hbytes.getD_readInto]
    split
    · rw [if_neg (by omega)]
    · exact htail i (by omega) hi

/-- A read keeps it, or a call fails, or the connection is closed with an empty file. -/
theorem emptyRun_read (beyond : Nat → Byte) (hc : c ≠ 0) (hm : 537 ≤ m) (h : EmptyRun c m s)
    (hne : bytes ≠ []) (hfits : bytes.length ≤ MESG_SIZE) (hbytes : ReadAt m bytes) :
    serverRead beyond s bytes = .error .callFailed ∨
    ∃ s', serverRead beyond s bytes = .ok s' ∧
      (EmptyRun c (m + bytes.length) s' ∨ s'.connected = false ∧ s'.files [c] = some []) := by
  have hpos := List.length_pos_iff.mpr hne
  obtain ⟨fd, hfd, hpath⟩ := h.fileDesc
  obtain ⟨hstore, hname, hafter, hlen⟩ := h.store_after hm hfits hbytes
  -- By the type: 0 truncates the file again, 1 writes or closes, and nothing else does anything.
  by_cases hzero : mesgType (readInto s.msgStore bytes) = 0
  · rcases EmptyRun.fileName_cases hc hname hafter with ⟨-, hfile⟩ | hfile
    · right
      exact ⟨_, serverRead_open beyond h.connected hzero hfile (by simp) (by simp [RECORD_NAME]),
        Or.inl ⟨hstore, h.connected, ⟨_, rfl, rfl⟩, hname, hafter, hlen,
          Or.inl FileMap.openTrunc_self⟩⟩
    · exact Or.inl (serverRead_unnamed beyond h.connected hzero hfile)
  right
  have hempty : s.files [c] = some [] := h.files_of_type_ne_zero hne hbytes hzero
  by_cases hone : mesgType (readInto s.msgStore bytes) = 1
  · obtain ⟨hfirst, hrest⟩ := getD_of_leNat_eq_one (k := 7) hone
    obtain rfl : m = 1048 := hbytes.start_of_type_one hne hfirst
    -- A write happens only if the read ends before `mesg_len` of the second structure is complete.
    by_cases hzeroLen : mesgLen (readInto s.msgStore bytes) = 0
    · exact ⟨_, serverRead_close beyond h.connected hone hzeroLen hfd, Or.inr ⟨rfl, hempty⟩⟩
    · have hshort : bytes.length ≤ 8 := h.short_of_mesgLen hbytes hzeroLen
      exact ⟨_, serverRead_write beyond h.connected hone hzeroLen hfd,
        Or.inl ⟨hstore, h.connected, ⟨_, rfl, hpath⟩, hname, hafter, hlen,
          Or.inr ⟨by omega, by omega, hfirst, hrest⟩⟩⟩
  · exact ⟨_, serverRead_other beyond h.connected hzero hone,
      Or.inl ⟨hstore, h.connected, ⟨fd, hfd, hpath⟩, hname, hafter, hlen, Or.inl hempty⟩⟩

end EmptyReads

/-- The two structures have 2096 bytes. -/
theorem emptyStream_length (c : Byte) : (emptyStream c).length = 2096 := by
  simp only [emptyStream, List.length_append, List.length_cons, List.length_replicate]

/-- The bytes of a read, when `m` bytes were read before. -/
theorem getD_of_drop {l bytes rest : List Byte} {m : Nat} (h : bytes ++ rest = l.drop m) {i : Nat}
    (hi : i < bytes.length) : bytes.getD i 0 = l.getD (m + i) 0 := by
  rw [← List.getD_append bytes rest 0 i hi, h, List.getD_eq_getElem?_getD,
    List.getD_eq_getElem?_getD, List.getElem?_drop]

/-- The reads to the end leave an empty file, or a call fails. -/
theorem emptyRun_reads (beyond : Nat → Byte) {c : Byte} (hc : c ≠ 0) (reads : List (List Byte)) :
    ∀ (m : Nat) (s : Server), 537 ≤ m → EmptyRun c m s →
      reads.flatten = (emptyStream c).drop m → (∀ r ∈ reads, r ≠ []) →
      (∀ r ∈ reads, r.length ≤ MESG_SIZE) →
      reads.foldlM (serverRead beyond) s = .error .callFailed ∨
        ∃ s', reads.foldlM (serverRead beyond) s = .ok s' ∧ s'.files [c] = some [] := by
  induction reads with
  | nil =>
    intro m s _ h hdrop _ _
    have hlen := congrArg List.length hdrop
    rw [List.length_drop, emptyStream_length] at hlen
    refine Or.inr ⟨s, rfl, ?_⟩
    rcases h.files with hfiles | ⟨-, hle, -⟩
    · exact hfiles
    · -- The stream is longer than 1056 bytes, so this is not its end.
      simp only [List.flatten_nil, List.length_nil] at hlen
      omega
  | cons bytes reads ih =>
    intro m s hm h hdrop hne hfits
    rw [List.flatten_cons] at hdrop
    have hbytes : ReadAt m bytes := by
      intro i hi
      rw [getD_of_drop hdrop hi, getD_emptyStream, if_neg (by omega), if_neg (by omega)]
    rw [List.foldlM_cons]
    rcases emptyRun_read beyond hc hm h (hne bytes List.mem_cons_self)
      (hfits bytes List.mem_cons_self) hbytes with herr | ⟨s', hread, hrun | ⟨hclosed, hfile⟩⟩
    · left
      rw [herr]
      rfl
    · rw [hread]
      refine ih (m + bytes.length) s' (by omega) hrun ?_
        (fun r hr => hne r (List.mem_cons_of_mem _ hr))
        (fun r hr => hfits r (List.mem_cons_of_mem _ hr))
      rw [← List.drop_drop, ← hdrop, List.drop_left]
    · rw [hread]
      exact Or.inr ⟨s', foldlM_closed beyond hclosed reads, hfile⟩

/-- What the first read leaves in `msgStore`, which was zero. -/
theorem getD_firstRead {c : Byte} {bytes rest : List Byte} (hflat : bytes ++ rest = emptyStream c)
    (files : Files) (i : Nat) :
    (readInto (Server.init files).msgStore bytes).getD i 0
      = if i < bytes.length then (emptyStream c).getD i 0 else 0 := by
  rw [getD_readInto]
  split
  · rename_i hi
    rw [getD_of_drop (m := 0) (l := emptyStream c) hflat hi, Nat.zero_add]
  · rw [List.getD_eq_getElem?_getD, Server.init, List.getElem?_replicate]
    split <;> rfl

/-- The first read opens the file when it has the name, and else `fopen` fails. -/
theorem emptyRun_first (beyond : Nat → Byte) (files : Files) {c : Byte} (hc : c ≠ 0)
    {bytes rest : List Byte} (hflat : bytes ++ rest = emptyStream c)
    (hfits : bytes.length ≤ MESG_SIZE) :
    serverRead beyond (Server.init files) bytes = .error .callFailed ∨
    ∃ s, serverRead beyond (Server.init files) bytes = .ok s ∧ 537 ≤ bytes.length ∧
      EmptyRun c bytes.length s := by
  have hget := getD_firstRead hflat files
  have htype : mesgType (readInto (Server.init files).msgStore bytes) = 0 := by
    refine leNat_take_eq_zero fun i hi => ?_
    rw [hget, getD_emptyStream]
    repeat' split
    all_goals first | rfl | omega
  have hname : (readInto (Server.init files).msgStore bytes).getD NAME_OFFSET 0 = c ∨
      (readInto (Server.init files).msgStore bytes).getD NAME_OFFSET 0 = 0 := by
    rw [hget, getD_emptyStream]
    split
    · exact Or.inl rfl
    · exact Or.inr rfl
  have hafter : (readInto (Server.init files).msgStore bytes).getD (NAME_OFFSET + 1) 0 = 0 := by
    rw [hget, getD_emptyStream]
    split <;> rfl
  rcases EmptyRun.fileName_cases hc hname hafter with ⟨hbyte, hfile⟩ | hfile
  · right
    have hlong : 537 ≤ bytes.length := by
      by_contra hlt
      rw [hget, if_neg (by rw [NAME_OFFSET]; omega)] at hbyte
      exact hc hbyte.symm
    refine ⟨_, serverRead_open beyond rfl htype hfile (by simp) (by simp [RECORD_NAME]), hlong,
      ?_, rfl, ⟨_, rfl, rfl⟩, hname, hafter, ?_, Or.inl FileMap.openTrunc_self⟩
    · rw [readInto_length (by rw [Server.init, List.length_replicate]; exact hfits),
        Server.init, List.length_replicate]
    · intro _ i hi hi'
      rw [hget, getD_emptyStream]
      repeat' split
      all_goals first | rfl | omega
  · exact Or.inl (serverRead_unnamed beyond rfl htype hfile)

/-- However the bytes are cut, the empty file with a name of one byte arrives. -/
theorem serve_empty (beyond : Nat → Byte) (files : Files) {c : Byte} (hc : c ≠ 0)
    {reads : List (List Byte)} (hcut : IsCut MESG_SIZE (emptyStream c) reads) :
    serve beyond files reads = .error .callFailed ∨ Arrives beyond files reads [c] [] := by
  obtain ⟨hflat, hne, hfits⟩ := hcut
  cases reads with
  | nil =>
    have hlen := congrArg List.length hflat
    rw [emptyStream_length] at hlen
    exact absurd hlen (by simp)
  | cons bytes reads =>
    rw [List.flatten_cons] at hflat
    rw [Arrives, serve, List.foldlM_cons]
    rcases emptyRun_first beyond files hc hflat (hfits bytes List.mem_cons_self) with
      herr | ⟨s, hread, hlong, hrun⟩
    · left
      rw [herr]
      rfl
    · rw [hread]
      exact emptyRun_reads beyond hc reads bytes.length s hlong hrun
        (by rw [← hflat, List.drop_left]) (fun r hr => hne r (List.mem_cons_of_mem _ hr))
        (fun r hr => hfits r (List.mem_cons_of_mem _ hr))

/-- Which files arrive: in any cut only the empty one with a name of one byte, and with whole
structures the empty ones. -/
theorem struct_transfer_iff (argv1 content : List Byte) (name : FileName)
    (hname : splitStr argv1 = some name.bytes) :
    (AlwaysArrives argv1 content ↔ content = [] ∧ name.bytes.length = 1) ∧
    (name.bytes.length ≤ RECORD_NAME → ∀ beyond files,
      (Arrives beyond files ((clientMessages name.bytes content).map Mymesg.bytes) name.bytes content
        ↔ content = [])) := by
  have hclient : client argv1 content = some (clientMessages name.bytes content) := by
    rw [client, hname]
    rfl
  constructor
  · constructor
    · intro hall
      have hone : name.bytes.length = 1 := by
        by_contra hlong
        -- With a longer name there is a cut that leaves the file as it was, here absent.
        obtain ⟨reads, s, hcut, hserve, hfile⟩ := serve_prefix (fun _ => 0) (fun _ => none) name
          hlong content
        rcases hall name.bytes _ hname hclient (fun _ => 0) (fun _ => none) reads hcut with
          herr | ⟨s', hserve', hfile'⟩
        · exact nomatch hserve.symm.trans herr
        · rw [hserve] at hserve'
          rw [← Except.ok.inj hserve', hfile] at hfile'
          exact nomatch hfile'
      refine ⟨?_, hone⟩
      have hshort : name.bytes.length ≤ RECORD_NAME := by
        rw [hone, RECORD_NAME]
        omega
      -- Whole structures are one of the cuts.
      rw [← whole_arrives_iff (fun _ => 0) (fun _ => none) name hshort content]
      obtain ⟨s, -, hserve, -⟩ := serve_whole (fun _ => 0) (fun _ => none) name hshort content
      rcases hall name.bytes _ hname hclient (fun _ => 0) (fun _ => none) _
        (isCut_whole name content) with herr | harrives
      · exact nomatch hserve.symm.trans herr
      · exact harrives
    · rintro ⟨rfl, hone⟩
      obtain ⟨c, hc⟩ := List.length_eq_one_iff.mp hone
      have hne : c ≠ 0 := by
        intro he
        exact name.noNul (by rw [hc, he]; exact List.mem_cons_self)
      intro name' ms hname' hms beyond files reads hcut
      rw [hname] at hname'
      rw [hclient] at hms
      rw [← Option.some.inj hms, hc, stream_empty] at hcut
      rw [← Option.some.inj hname', hc]
      exact serve_empty beyond files hne hcut
  · intro hshort beyond files
    exact whole_arrives_iff beyond files name hshort content

/-- The file `a`. -/
def nameA : FileName := ⟨[0x61], by decide, by decide, by decide, by decide⟩

/-- An empty file `d/a` always arrives. -/
theorem struct_transfer_iff_empty : AlwaysArrives [0x64, 0x2F, 0x61] [] :=
  (struct_transfer_iff [0x64, 0x2F, 0x61] [] nameA (by decide)).1.mpr ⟨rfl, rfl⟩

/-- A file of one byte arrives as the rest of a structure. -/
theorem struct_transfer_too_long : ¬ ∀ argv1 content, AlwaysArrives argv1 content := by
  intro hall
  obtain ⟨s, data, hserve, hdata, hfile⟩ := serve_whole (fun _ => 0) (fun _ => none) nameA
    (by decide) [7]
  rcases hall [0x61] [7] [0x61] (clientMessages [0x61] [7]) (by decide) rfl (fun _ => 0)
    (fun _ => none) _ (isCut_whole nameA [7]) with herr | ⟨s', hserve', hfile'⟩
  · exact nomatch hserve.symm.trans herr
  · rw [← Except.ok.inj (hserve.symm.trans hserve')] at hfile'
    rw [Option.some.inj (hfile.symm.trans hfile')] at hdata
    exact absurd hdata (by decide)

end LearnGit.Proofs.FileTransfer
