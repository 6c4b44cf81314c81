import HonorKernel.MkfsAppend

-- The image after every step of mkfs, and as the kernel finds it in the end.
namespace Mkfs
open DiskFormat InodeLayer CacheView Semaphores Ownership

-- No inode is in memory.
def idle (v : View) : Fs := ⟨v,fun _ => none⟩

def opened (v : View) (p : Usize) (e : InodeEntry) : Fs := (idle v).setInode p (loaded p e)

-- The same block numbers in the same places, and the same data blocks.
structure Recast (fs fs' : Fs) : Prop where
  addrs : ∀ no, InTable sb no → (entryOf sb fs' no).addrs = (entryOf sb fs no).addrs
  indirect : ∀ no, InTable sb no → (entryOf sb fs' no).indirect = (entryOf sb fs no).indirect
  data : ∀ b, dataBlock sb b → fs'.cache.blocks b = fs.cache.blocks b
  marks : ∀ b, used sb fs'.cache b ↔ used sb fs.cache b
  loaded : ∀ p inode, fs'.inodes p = some inode → InTable sb p ∧ inode.inodeNo = p ∧ inode.valid = true

section Recasting
variable {fs fs' : Fs} {no : Usize} {text : List Byte}

theorem Recast.refs (recast : Recast fs fs') (owned : Owned sb table fs) (slot : Usize × Place) :
    refs sb table fs' slot = refs sb table fs slot := by
  obtain ⟨no,place⟩ := slot
  unfold InodeLayer.refs
  by_cases alive : table no = true
  · have inTable := table_iff.mp alive
    simp only [if_pos alive]
    cases place with
    | direct i => simp only [refsOf,recast.addrs no inTable]
    | indirect => simp only [refsOf,recast.indirect no inTable]
    | entry i =>
      simp only [refsOf,recast.indirect no inTable]
      by_cases absent : (entryOf sb fs no).indirect = 0#32
      · rw [if_pos absent,if_pos absent]
      · rw [if_neg absent,if_neg absent,recast.data _ (owned.indirect_data alive absent).2.1]
  · simp only [if_neg alive]

theorem Recast.owned (recast : Recast fs fs') (owned : Owned sb table fs) : Owned sb table fs' := by
  refine ⟨owned.inTable,?_,?_,owned.balanced.congr (recast.refs owned) fun b _ => recast.marks b⟩
  · intro p inode there
    obtain ⟨inTable,number,valid⟩ := recast.loaded p inode there
    exact ⟨table_iff.mpr inTable,number,valid⟩
  · intro b low
    exact (recast.marks b).mpr (owned.low b low)

theorem Recast.tight {n : Nat} (recast : Recast fs fs') (owned : Owned sb table fs) (inTable : InTable sb no)
    (tight : Tight fs no n) : Tight fs' no n :=
  tight.of_refs inTable fun _ _ => recast.refs owned _

theorem Recast.bytes (recast : Recast fs fs') (owned : Owned sb table fs) (inTable : InTable sb no)
    (bytes : Bytes fs no text) : Bytes fs' no text :=
  bytes.of_refs inTable (fun _ => recast.refs owned _) fun _ b refers => recast.data b (owned.used_of_ref refers).1

end Recasting

-- Between two calls of ialloc and iappend: `v` is the image with a bitmap that has the
-- blocks below freeblock.
structure Drawn (files : Files) (d : State) (v : View) : Prop where
  same : ∀ b, b ≠ bitmapBlock sb → v.blocks b = d.sectors b
  marks : ∀ j, bitmapGet (v.blocks (bitmapBlock sb)) j = decide (j < d.freeblock.toNat)
  fresh : ∀ b, d.freeblock.toNat ≤ b.toNat → d.sectors b = 0#4096
  above : nmeta ≤ d.freeblock.toNat
  below : d.freeblock.toNat ≤ fsSize
  owned : Owned sb table (idle v)
  contents : ∀ no, InTable sb no → Bytes (idle v) no (files no).2
  tight : ∀ no, InTable sb no → Tight (idle v) no (files no).2.length
  heads : ∀ no, InTable sb no → Headed (diskEntry sb v no) (files no).1
  sizes : ∀ no, InTable sb no → (diskEntry sb v no).numBytes.toNat = (files no).2.length
  unused : ∀ no, InTable sb no → d.freeinode.toNat ≤ no.toNat → diskEntry sb v no = InodeEntry.zero
  reserved : ∀ b, b.toNat < sb.inodeStart.toNat → d.sectors b = blank.sectors b

section Drawing
variable {files : Files} {d d' : State} {v : View} {p : Usize}

theorem table_ne_bitmap (inTable : InTable sb p) : toBlockNo sb p ≠ bitmapBlock sb := by
  intro same
  have bounds := (tableBlock_bounds inTable).2
  rw [same,bitmapBlock_toNat] at bounds
  omega

theorem tableBlock_read (d : State) (inTable : InTable sb p) :
    d.rsect (toBlockNo sb p) = .ok (d.sectors (toBlockNo sb p)) := by
  have bounds := (tableBlock_bounds inTable).2
  have start := bitmapStart_toNat
  have size := fsSize_eq
  unfold State.rsect
  rw [if_pos (by omega)]

theorem winode_ok (d : State) (inTable : InTable sb p) (din : InodeEntry) :
    winode p din d = .ok (d.wsect (toBlockNo sb p) (putEntry (d.sectors (toBlockNo sb p)) p din)) := by
  unfold winode
  rw [tableBlock_read d inTable]
  rfl

theorem rinode_ok (drawn : Drawn files d v) (inTable : InTable sb p) : rinode p d = .ok (diskEntry sb v p) := by
  unfold rinode diskEntry
  rw [tableBlock_read d inTable,drawn.same _ (table_ne_bitmap inTable)]
  rfl

theorem writeEntry_elsewhere (ctx : Ctx) (v : View) (e : InodeEntry) {b : Usize} (other : b ≠ toBlockNo sb p) :
    (writeEntry sb ctx v p e).blocks b = v.blocks b := by
  unfold writeEntry
  rw [View.put_blocks,Function.update_of_ne other]

theorem writeEntry_used (ctx : Ctx) (v : View) (e : InodeEntry) (inTable : InTable sb p) (b : Usize) :
    used sb (writeEntry sb ctx v p e) b ↔ used sb v b := by
  unfold used
  rw [writeEntry_elsewhere ctx v e (Ne.symm (table_ne_bitmap inTable))]

theorem data_ne_table (inTable : InTable sb p) {b : Usize} (inData : dataBlock sb b) : b ≠ toBlockNo sb p := (layout.apart inTable inData).1

theorem rewrite_recast (ctx : Ctx) (inTable : InTable sb p) {e : InodeEntry}
    (addrs : e.addrs = (diskEntry sb v p).addrs) (indirect : e.indirect = (diskEntry sb v p).indirect) :
    Recast (idle v) (idle (writeEntry sb ctx v p e)) := by
  have entry : ∀ no, InTable sb no → (entryOf sb (idle (writeEntry sb ctx v p e)) no).addrs = (diskEntry sb v no).addrs ∧
      (entryOf sb (idle (writeEntry sb ctx v p e)) no).indirect = (diskEntry sb v no).indirect := by
    intro no inTable'
    change (diskEntry sb (writeEntry sb ctx v p e) no).addrs = _ ∧ (diskEntry sb (writeEntry sb ctx v p e) no).indirect = _
    by_cases own : no = p
    · subst own
      rw [writeEntry_own]
      exact ⟨addrs,indirect⟩
    · rw [writeEntry_other layout v inTable inTable' own]
      exact ⟨rfl,rfl⟩
  refine ⟨fun no there => (entry no there).1,fun no there => (entry no there).2,?_,?_,?_⟩
  · intro b inData
    exact writeEntry_elsewhere ctx v e (data_ne_table inTable inData)
  · exact writeEntry_used ctx v e inTable
  · intro q inode there
    cases there

theorem opened_recast (inTable : InTable sb p) : Recast (idle v) (opened v p (diskEntry sb v p)) := by
  have entry : ∀ no, entryOf sb (opened v p (diskEntry sb v p)) no = diskEntry sb v no := by
    intro no
    unfold entryOf opened Fs.setInode
    by_cases own : no = p
    · subst own
      simp only [Function.update_self]
      rfl
    · simp only [Function.update_of_ne own]
      rfl
  refine ⟨fun no _ => by rw [entry]; rfl,fun no _ => by rw [entry]; rfl,fun _ _ => rfl,fun _ => Iff.rfl,?_⟩
  intro q inode there
  unfold opened Fs.setInode at there
  by_cases own : q = p
  · subst own
    simp only [Function.update_self,Option.some.injEq] at there
    subst there
    exact ⟨inTable,rfl,rfl⟩
  · simp only [Function.update_of_ne own] at there
    cases there

theorem Recast.trans {fs fs' fs'' : Fs} (first : Recast fs fs') (second : Recast fs' fs'') : Recast fs fs'' :=
  ⟨fun no there => (second.addrs no there).trans (first.addrs no there),fun no there =>
      (second.indirect no there).trans (first.indirect no there),
    fun b inData => (second.data b inData).trans (first.data b inData),fun b => (second.marks b).trans (first.marks b),second.loaded⟩

-- Before the first round the entry has the size that it is to have in the end.
theorem Drawn.start (drawn : Drawn files d v) (inTable : InTable sb p) (known : p.toNat < d.freeinode.toNat)
    (size : U32) (ctx : Ctx) :
    Appending files p size (diskEntry sb v p) d
      (opened (writeEntry sb ctx v p ((diskEntry sb v p).setNumBytes size)) p ((diskEntry sb v p).setNumBytes size)) := by
  have rewritten := rewrite_recast (v := v) ctx inTable (e := (diskEntry sb v p).setNumBytes size) rfl rfl
  have loading := opened_recast (v := writeEntry sb ctx v p ((diskEntry sb v p).setNumBytes size)) inTable
  rw [writeEntry_own] at loading
  have recast := rewritten.trans loading
  have there := drawn.same _ (table_ne_bitmap inTable)
  have synced : (writeEntry sb ctx v p ((diskEntry sb v p).setNumBytes size)).blocks (toBlockNo sb p) =
      putEntry (d.sectors (toBlockNo sb p)) p ((diskEntry sb v p).setNumBytes size) := by
    unfold writeEntry
    rw [View.put_blocks,Function.update_self,there]
  have disk : ∀ no, InTable sb no → no ≠ p →
      diskEntry sb (writeEntry sb ctx v p ((diskEntry sb v p).setNumBytes size)) no = diskEntry sb v no :=
    fun no inTable' other => writeEntry_other layout v inTable inTable' other _
  refine ⟨⟨Function.update_self ..,fun no other => Function.update_of_ne other ..,?_,⟨_,synced⟩,?_,drawn.fresh,
      drawn.above,drawn.below⟩,synced,
    recast.owned drawn.owned,known,fun no inTable' => recast.bytes drawn.owned inTable' (drawn.contents no inTable'),
    fun no inTable' => recast.tight drawn.owned inTable' (drawn.tight no inTable'),?_,?_,?_,drawn.reserved⟩
  · intro b other outside
    exact (writeEntry_elsewhere ctx v _ outside).trans (drawn.same b other)
  · intro j
    rw [← drawn.marks j]
    exact congrArg (bitmapGet · j) (writeEntry_elsewhere ctx v _ (Ne.symm (table_ne_bitmap inTable)))
  · intro no inTable'
    have head := drawn.heads no inTable'
    unfold entryOf opened Fs.setInode
    by_cases own : no = p
    · subst own
      simp only [Function.update_self]
      exact head
    · simp only [Function.update_of_ne own]
      exact (congrArg (fun e => Headed e (files no).1) (disk no inTable' own)).mpr head
  · intro no inTable' other
    rw [← drawn.sizes no inTable']
    exact congrArg (fun e => e.numBytes.toNat) (disk no inTable' other)
  · intro no inTable' beyond
    have other : no ≠ p := by
      rintro rfl
      omega
    exact (disk no inTable' other).trans (drawn.unused no inTable' beyond)

theorem Appending.finish {size : U32} {din : InodeEntry} {fs : Fs} (appending : Appending files p size din d fs)
    (inTable : InTable sb p) (sized : size.toNat = (files p).2.length) :
    ∃ d', winode p (din.setNumBytes size) d = .ok d' ∧ d'.freeinode = d.freeinode ∧
      d'.freeblock = d.freeblock ∧ Drawn files d' fs.cache := by
  have mirrors := appending.mirrors
  have disk : ∀ no, InTable sb no → diskEntry sb fs.cache no = entryOf sb fs no := by
    intro no inTable'
    by_cases own : no = p
    · subst own
      rw [mirrors.entryOf]
      unfold diskEntry
      rw [appending.synced,getEntry_putEntry]
    · unfold entryOf
      rw [mirrors.alone no own]
  have recast : Recast fs (idle fs.cache) := by
    refine ⟨?_,?_,fun _ _ => rfl,fun _ => Iff.rfl,?_⟩
    · intro no inTable'
      exact congrArg InodeEntry.addrs (disk no inTable')
    · intro no inTable'
      exact congrArg InodeEntry.indirect (disk no inTable')
    · intro q inode there
      cases there
  have bounds := tableBlock_bounds inTable
  have numbers := nmeta_eq
  have start := bitmapStart_toNat
  refine ⟨_,winode_ok d inTable _,rfl,rfl,⟨?_,mirrors.marks,?_,mirrors.above,mirrors.below,recast.owned appending.owned,
    fun no inTable' => recast.bytes appending.owned inTable' (appending.contents no inTable'),
    fun no inTable' => recast.tight appending.owned inTable' (appending.tight no inTable'),?_,?_,?_,?_⟩⟩
  · intro b other
    simp only [State.wsect]
    by_cases own : b = toBlockNo sb p
    · rw [own,Function.update_self]
      exact appending.synced
    · rw [Function.update_of_ne own]
      exact mirrors.blocks b other own
  · intro b beyond
    have beyond : d.freeblock.toNat ≤ b.toNat := beyond
    have above := mirrors.above
    simp only [State.wsect]
    rw [Function.update_of_ne (by rintro rfl; omega)]
    exact mirrors.fresh b beyond
  · intro no inTable'
    rw [disk no inTable']
    exact appending.heads no inTable'
  · intro no inTable'
    by_cases own : no = p
    · subst own
      rw [disk no inTable',mirrors.entryOf]
      exact sized
    · exact appending.sizes no inTable' own
  · intro no inTable' beyond
    exact appending.unused no inTable' beyond
  · intro b low
    simp only [State.wsect]
    rw [Function.update_of_ne (by rintro rfl; omega)]
    exact appending.reserved b low

-- iappend leaves the image that inode_write at the end of the file leaves.
theorem Drawn.iappend (op : Nat) (bytes : List Byte) (drawn : Drawn files d v) (inTable : InTable sb p)
    (known : p.toNat < d.freeinode.toNat) (fits : (files p).2.length+bytes.length ≤ inodeMaxBytes)
    (room : d.freeblock.toNat+blocksOf ((files p).2.length+bytes.length) ≤ fsSize+blocksOf (files p).2.length) :
    ∃ d' v',
      Mkfs.iappend p bytes d = .ok d' ∧ d'.freeinode = d.freeinode ∧
      d'.freeblock.toNat+blocksOf (files p).2.length ≤ d.freeblock.toNat+blocksOf ((files p).2.length+bytes.length) ∧
      Drawn (files.append p bytes) d' v' ∧ ((files p).1 ≠ inodeDevice → bytes ≠ [] → ∃ fs',
        inodeWrite kernel (some op) p bytes (BitVec.ofNat 64 (files p).2.length) (opened v p (diskEntry sb v p)) =
          .ok (BitVec.ofNat 64 bytes.length,fs') ∧ fs'.cache = v') := by
  have total : inodeMaxBytes = 71680 := rfl
  have length := drawn.sizes p inTable
  generalize sized : (BitVec.ofNat 32 ((files p).2.length+bytes.length) : U32) = size
  have number : size.toNat = (files p).2.length+bytes.length := by
    rw [← sized,BitVec.toNat_ofNat,Nat.mod_eq_of_lt (by omega)]
  have start := drawn.start inTable known size (some op)
  obtain ⟨din,d',fs,looped,written,counter,spent,last⟩ := start.loop op bytes bytes.length inTable fits (Nat.le_refl _) room
  obtain ⟨d'',closed,counter',same,drawn'⟩ := last.finish inTable (by rw [number,append_length])
  refine ⟨d'',fs.cache,?_,counter'.trans counter,by rw [same]; exact spent,drawn',?_⟩
  · unfold Mkfs.iappend
    rw [rinode_ok drawn inTable]
    simp only [bind,Except.bind,length,looped,sized]
    exact closed
  · intro file more
    have positive := List.length_pos_iff.mpr more
    have type : (diskEntry sb v p).type ≠ inodeDevice := by
      rw [(drawn.heads p inTable).1]
      exact file
    have found : (opened v p (diskEntry sb v p)).inodes p = some (loaded p (diskEntry sb v p)) := Function.update_self ..
    have offset : (BitVec.ofNat 64 (files p).2.length).toNat = (files p).2.length := by
      rw [BitVec.toNat_ofNat,Nat.mod_eq_of_lt (by omega)]
    obtain ⟨ends,starts⟩ := write_bounds (diskEntry sb v p).numBytes (BitVec.ofNat 64 (files p).2.length) bytes
        (by rw [offset]; exact fits)
    have wide : ((diskEntry sb v p).numBytes.setWidth 64 : Usize).toNat = (files p).2.length := by rw [wide_toNat]; exact length
    have asserted : BitVec.ofNat 64 (files p).2.length ≤ (diskEntry sb v p).numBytes.setWidth 64 ∧
        (BitVec.ofNat 64 (files p).2.length+BitVec.ofNat 64 bytes.length).toNat ≤ inodeMaxBytes ∧
        BitVec.ofNat 64 (files p).2.length ≤ BitVec.ofNat 64 (files p).2.length+BitVec.ofNat 64 bytes.length := by
      refine ⟨starts.mpr (by rw [offset,length]),by rw [ends,offset]; exact fits,?_⟩
      rw [BitVec.le_def,ends]
      omega
    have narrow : (BitVec.ofNat 64 (files p).2.length+BitVec.ofNat 64 bytes.length).setWidth 32 = size := by
      apply BitVec.eq_of_toNat_eq
      rw [BitVec.toNat_setWidth,ends,offset,number,Nat.mod_eq_of_lt (by omega)]
    have grown : growTo kernel (some op) p (loaded p (diskEntry sb v p))
        (BitVec.ofNat 64 (files p).2.length+BitVec.ofNat 64 bytes.length)
        (opened v p (diskEntry sb v p)) = .ok (opened (writeEntry sb (some op) v p ((diskEntry sb v p).setNumBytes size)) p
          ((diskEntry sb v p).setNumBytes size)) := by
      have past : ((loaded p (diskEntry sb v p)).entry.numBytes.setWidth 64 : Usize) <
          BitVec.ofNat 64 (files p).2.length+BitVec.ofNat 64 bytes.length := by
        change ((diskEntry sb v p).numBytes.setWidth 64 : Usize) < _
        rw [BitVec.lt_def,wide,ends,offset]
        omega
      have resized : (opened v p (diskEntry sb v p)).setEntry p (loaded p (diskEntry sb v p)) ((diskEntry sb v p).setNumBytes size) =
          opened v p ((diskEntry sb v p).setNumBytes size) := by
        unfold opened Fs.setEntry Fs.setInode
        rw [Function.update_idem]
        rfl
      unfold growTo
      rw [if_pos past,narrow]
      change inodeSync kernel (some op) p true ((opened v p (diskEntry sb v p)).setEntry p (loaded p (diskEntry sb v p))
        ((diskEntry sb v p).setNumBytes size)) = _
      rw [resized,inodeSync_loaded (some op) (Function.update_self ..)]
      rfl
    refine ⟨fs,?_,rfl⟩
    unfold inodeWrite
    simp only [Fs.inode_ok.mpr found,bind,Except.bind]
    refine (if_neg type).trans ((if_pos asserted).trans ?_)
    rw [grown]
    simp only [offset,written]

def Files.create (files : Files) (no : Usize) (type : U16) : Files := Function.update files no (type,[])

theorem Drawn.writes (drawn : Drawn files d v) {no : Usize} (inTable : InTable sb no) (e : InodeEntry) {b : Usize}
    (other : b ≠ bitmapBlock sb) :
    (writeEntry sb none v no e).blocks b = (d.wsect (toBlockNo sb no) (putEntry (d.sectors (toBlockNo sb no)) no e)).sectors b := by
  simp only [State.wsect]
  by_cases own : b = toBlockNo sb no
  · rw [own,Function.update_self,← drawn.same _ (table_ne_bitmap inTable)]
    unfold writeEntry
    rw [View.put_blocks,Function.update_self]
  · rw [Function.update_of_ne own,writeEntry_elsewhere none v e own]
    exact drawn.same b other

-- The next entry of the table is filled in. It was all zero, so it owns nothing.
theorem Drawn.ialloc (drawn : Drawn files d v) (free : 0 < d.freeinode.toNat ∧ d.freeinode.toNat < nInodes)
    (type : U16) (valid : type ≠ inodeInvalid) : ∃ d' v',
    Mkfs.ialloc type d = .ok (d.freeinode.setWidth 64,d') ∧ d'.freeinode.toNat = d.freeinode.toNat+1 ∧
    d'.freeblock = d.freeblock ∧
      Drawn (files.create (d.freeinode.setWidth 64) type) d' v' := by
  have number : (d.freeinode.setWidth 64 : Usize).toNat = d.freeinode.toNat := wide_toNat _
  have inTable : InTable sb (d.freeinode.setWidth 64) := by
    rw [inTable_iff,number]
    exact free
  have vacant : diskEntry sb v (d.freeinode.setWidth 64) = InodeEntry.zero := drawn.unused _ inTable (by rw [number])
  have empty : (files (d.freeinode.setWidth 64)).2 = [] := by
    have length := drawn.sizes _ inTable
    rw [vacant] at length
    exact List.length_eq_zero_iff.mp length.symm
  have counter : (d.freeinode+1#32).toNat = d.freeinode.toNat+1 := by
    have few : d.freeinode.toNat < 200 := free.2
    rw [BitVec.toNat_add]
    exact Nat.mod_eq_of_lt (by change d.freeinode.toNat+1 < 2^32; omega)
  generalize entry : ((InodeEntry.zero.setType type).setNumLinks 1#16).setNumBytes 0#32 = e
  have headed : Headed e type := ⟨by rw [← entry]; rfl,by rw [← entry,if_neg valid]; rfl⟩
  have sized : e.numBytes = 0#32 := by rw [← entry]; rfl
  have recast := rewrite_recast (v := v) none inTable (e := e) (by rw [vacant,← entry]; rfl) (by rw [vacant,← entry]; rfl)
  have bounds := tableBlock_bounds inTable
  have numbers := nmeta_eq
  have start := bitmapStart_toNat
  have ran : Mkfs.ialloc type d = .ok (d.freeinode.setWidth 64,State.wsect { d with freeinode := d.freeinode+1#32 }
      (toBlockNo sb (d.freeinode.setWidth 64)) (putEntry (d.sectors (toBlockNo sb (d.freeinode.setWidth 64)))
          (d.freeinode.setWidth 64) e)) := by
    unfold Mkfs.ialloc
    simp only [winode_ok _ inTable,entry,bind,Except.bind]
  refine ⟨_,writeEntry sb none v (d.freeinode.setWidth 64) e,ran,counter,rfl,?_⟩
  generalize d.freeinode.setWidth 64 = no at *
  have disk : ∀ other, InTable sb other → other ≠ no → diskEntry sb (writeEntry sb none v no e) other = diskEntry sb v other :=
    fun other inTable' different => writeEntry_other layout v inTable inTable' different _
  refine ⟨?_,?_,?_,drawn.above,drawn.below,recast.owned drawn.owned,?_,?_,?_,?_,?_,?_⟩
  · exact fun b other => drawn.writes inTable e other
  · intro j
    rw [writeEntry_elsewhere none v e (Ne.symm (table_ne_bitmap inTable))]
    exact drawn.marks j
  · intro b beyond
    have beyond : d.freeblock.toNat ≤ b.toNat := beyond
    have above := drawn.above
    simp only [State.wsect]
    rw [Function.update_of_ne (by rintro rfl; omega)]
    exact drawn.fresh b beyond
  · intro other inTable'
    have old := recast.bytes drawn.owned inTable' (drawn.contents other inTable')
    unfold Files.create
    by_cases own : other = no
    · subst own
      rw [empty] at old
      rw [Function.update_self]
      exact old
    · rw [Function.update_of_ne own]
      exact old
  · intro other inTable'
    have old := recast.tight drawn.owned inTable' (drawn.tight other inTable')
    unfold Files.create
    by_cases own : other = no
    · subst own
      rw [empty] at old
      rw [Function.update_self]
      exact old
    · rw [Function.update_of_ne own]
      exact old
  · intro other inTable'
    unfold Files.create
    by_cases own : other = no
    · subst own
      rw [Function.update_self,writeEntry_own]
      exact headed
    · rw [Function.update_of_ne own,disk other inTable' own]
      exact drawn.heads other inTable'
  · intro other inTable'
    unfold Files.create
    by_cases own : other = no
    · subst own
      rw [Function.update_self,writeEntry_own,sized]
      rfl
    · rw [Function.update_of_ne own,disk other inTable' own]
      exact drawn.sizes other inTable'
  · intro other inTable' beyond
    have beyond : (d.freeinode+1#32).toNat ≤ other.toNat := beyond
    have own : other ≠ no := by
      rintro rfl
      omega
    rw [disk other inTable' own]
    exact drawn.unused other inTable' (by omega)
  · intro b low
    simp only [State.wsect]
    rw [Function.update_of_ne (by rintro rfl; omega)]
    exact drawn.reserved b low

theorem Drawn.appendAll (chunks : List (List Byte)) (drawn : Drawn files d v) (inTable : InTable sb p)
    (known : p.toNat < d.freeinode.toNat) (fits : (files p).2.length+chunks.flatten.length ≤ inodeMaxBytes)
    (room : d.freeblock.toNat+blocksOf ((files p).2.length+chunks.flatten.length) ≤ fsSize+blocksOf (files p).2.length) : ∃ d' v',
      Mkfs.appendAll p chunks d = .ok d' ∧ d'.freeinode = d.freeinode ∧
      d'.freeblock.toNat+blocksOf (files p).2.length ≤ d.freeblock.toNat+blocksOf ((files p).2.length+chunks.flatten.length) ∧
      Drawn (files.append p chunks.flatten) d' v' := by
  induction chunks generalizing files d v with
  | nil => exact ⟨d,v,rfl,rfl,Nat.le_refl _,by rw [List.flatten_nil,append_nil]; exact drawn⟩
  | cons chunk rest ih =>
    rw [List.flatten_cons,List.length_append] at fits room
    have mono := blocksOf_mono (show (files p).2.length+chunk.length ≤ (files p).2.length+(chunk.length+rest.flatten.length) by omega)
    obtain ⟨d',v',ran,counter,spent,after,_⟩ := drawn.iappend 0 chunk inTable known (by omega) (by omega)
    have grown : (files.append p chunk p).2.length = (files p).2.length+chunk.length := append_length files p chunk
    have whole : (files p).2.length+chunk.length+rest.flatten.length =
        (files p).2.length+(chunk.length+rest.flatten.length) := by omega
    obtain ⟨d'',v'',ran',counter',spent',last⟩ := ih after (by rw [counter]; exact known) (by rw [grown]; omega)
        (by rw [grown,whole]; omega)
    rw [grown,whole] at spent'
    rw [append_append] at last
    refine ⟨d'',v'',?_,counter'.trans counter,?_,last⟩
    · unfold Mkfs.appendAll
      rw [List.foldlM_cons,ran]
      exact ran'
    · rw [List.flatten_cons,List.length_append]
      omega

end Drawing

end Mkfs
