import HonorKernel.FileContents

-- Sequences of inode_write calls on any inodes, and what inode_read returns afterwards.
namespace InodeLayer
open DiskFormat CacheView Overlay

structure WriteCall where
  ctx : Ctx
  p : Usize
  src : List Byte
  offset : Usize
  deriving DecidableEq

def WriteCall.call (w : WriteCall) : Call := .write w.ctx w.p w.src w.offset

def WriteCall.Fits (w : WriteCall) : Prop := w.offset.toNat+w.src.length ≤ inodeMaxBytes

instance (w : WriteCall) : Decidable w.Fits := inferInstanceAs (Decidable (w.offset.toNat+w.src.length ≤ inodeMaxBytes))

def writesTo (p : Usize) : List WriteCall → List (Write Byte)
  | [] => []
  | w::ws => if w.p = p then (w.offset.toNat,w.src)::writesTo p ws else writesTo p ws

-- What a reader of `p` sees: nothing of the layers below.
structure Holds (fs : Fs) (p : Usize) (size : Nat) (bytes : Nat → Option Byte) : Prop where
  there : ∃ inode, fs.inodes p = some inode ∧ inode.entry.type ≠ inodeDevice ∧ Whole fs.cache inode.entry ∧
    inode.entry.numBytes.toNat = size ∧ content fs.cache inode.entry = bytes

section Steps
variable {env : Env} {p : Usize} {fs fs' : Fs} {w : WriteCall}

theorem inodeLock_same (ran : inodeLock p fs = .ok fs') :
    fs'.cache = fs.cache ∧ ∀ q, q ≠ p → fs'.inodes q = fs.inodes q := by
  obtain ⟨_,_,_,rfl⟩ := inodeLock_set ran
  exact ⟨rfl,fun q other => Function.update_of_ne other _ _⟩

theorem inodeUnlock_same (ran : inodeUnlock p fs = .ok fs') :
    fs'.cache = fs.cache ∧ ∀ q, q ≠ p → fs'.inodes q = fs.inodes q := by
  obtain ⟨_,_,_,rfl⟩ := inodeUnlock_set ran
  exact ⟨rfl,fun q other => Function.update_of_ne other _ _⟩

theorem inodeWrite_device (found : fs.inodes p = some inode) (device : inode.entry.type = inodeDevice)
    (ran : inodeWrite env ctx p src offset fs = .ok (n,fs')) :
    fs'.cache = fs.cache ∧ ∀ q, q ≠ p → fs'.inodes q = fs.inodes q := by
  obtain ⟨same,there,ran⟩ := Runs.bind_ok.mp ran
  rw [Fs.inode_ok.mpr found] at there
  cases there
  simp only at ran
  rw [if_pos device] at ran
  split at ran
  · obtain ⟨middle,unlocked,ran⟩ := Runs.bind_ok.mp ran
    obtain ⟨last,locked,ran⟩ := Runs.bind_ok.mp ran
    cases ran
    obtain ⟨cache,inodes⟩ := inodeUnlock_same unlocked
    obtain ⟨cache',inodes'⟩ := inodeLock_same locked
    exact ⟨cache'.trans cache,fun q other => (inodes' q other).trans (inodes q other)⟩
  · cases ran

theorem write_step (layout : Layout env.sblock) (consistent : Consistent env.sblock fs) (fits : w.Fits)
    (ran : call env fs w.call = .ok fs') (holds : Holds fs q size bytes) :
    if w.p = q then Holds fs' q (max size (w.offset.toNat+w.src.length))
        (fun x => if covers (w.offset.toNat,w.src) x then w.src[x-w.offset.toNat]? else bytes x)
    else Holds fs' q size bytes := by
  obtain ⟨inode,found,file,whole,sized,painted⟩ := holds.there
  obtain ⟨⟨n,_⟩,returned,rfl⟩ := Runs.map_ok ran
  have owned := consistent.owned
  split
  · rename_i own
    subst own
    obtain ⟨_,starts,owned',writes,_,inode',found',type,size'⟩ :=
      inodeWrite_content layout owned found file fits returned
    obtain ⟨whole',painted'⟩ := write_paints writes owned owned' found found' whole fits starts size'
    refine ⟨inode',found',by rw [type]; exact file,whole',by rw [size',sized],?_⟩
    rw [painted',painted]
  · rename_i other
    have other : q ≠ w.p := Ne.symm other
    obtain ⟨target,there⟩ := found_of_bind returned
    by_cases device : target.entry.type = inodeDevice
    · obtain ⟨cache,inodes⟩ := inodeWrite_device there device returned
      refine ⟨inode,by rw [inodes q other]; exact found,file,?_,sized,?_⟩
      · rw [cache]; exact whole
      · rw [cache]; exact painted
    · obtain ⟨_,_,owned',writes,inodes,_⟩ := inodeWrite_content layout owned there device fits returned
      have found' := (inodes q other).trans found
      obtain ⟨whole',same⟩ := write_spares writes owned owned' found found' whole other
      exact ⟨inode,found',file,whole',sized,same.trans painted⟩

theorem writes_hold {start : Fs} (layout : Layout env.sblock) (ws : List WriteCall)
    (consistent : Consistent env.sblock start) (fits : ∀ w ∈ ws, w.Fits)
    (ran : Runs.exec (next env) start (ws.map WriteCall.call) = some fs) (holds : Holds start q size bytes) :
    Consistent env.sblock fs ∧ Holds fs q (reach size (writesTo q ws)) (paint bytes (writesTo q ws)) := by
  induction ws generalizing start size bytes with
  | nil => cases ran; exact ⟨consistent,holds⟩
  | cons w ws ih =>
    obtain ⟨middle,first,rest⟩ := Option.bind_eq_some_iff.mp ran
    have first := Runs.toOption_some first
    have consistent' := call_consistent layout consistent w.call trivial first
    have step := write_step layout consistent (fits w List.mem_cons_self) first holds
    have later : ∀ other ∈ ws, other.Fits := fun other member => fits other (List.mem_cons_of_mem _ member)
    unfold writesTo
    split at step
    · rename_i own
      rw [if_pos own,reach_cons,paint_cons]
      exact ih consistent' later rest step
    · rename_i other
      rw [if_neg other]
      exact ih consistent' later rest step

theorem Holds.read (env : Env) (holds : Holds fs p size bytes) (offset count : Usize)
    (inside : offset.toNat ≤ size) (small : offset.toNat+count.toNat < 2^64) : ∃ out,
    inodeRead env p offset count fs = .ok (BitVec.ofNat 64 (min count.toNat (size-offset.toNat)),out,fs) ∧
      out.length = min count.toNat (size-offset.toNat) ∧ ∀ j, j < out.length → out[j]? = bytes (offset.toNat+j) := by
  obtain ⟨inode,found,file,whole,sized,painted⟩ := holds.there
  subst sized painted
  refine ⟨_,inodeRead_whole found file whole offset count inside small,by simp,?_⟩
  intro j below
  rw [List.length_map,List.length_range] at below
  have position : offset.toNat+j < inode.entry.numBytes.toNat := by omega
  unfold content
  rw [if_pos position,List.getElem?_map,List.getElem?_range below]
  rfl

theorem writesTo_none (ws : List WriteCall) (others : ∀ w ∈ ws, w.p ≠ p) : writesTo p ws = [] := by
  induction ws with
  | nil => rfl
  | cons w ws ih =>
    unfold writesTo
    rw [if_neg (others w List.mem_cons_self)]
    exact ih fun other member => others other (List.mem_cons_of_mem _ member)

theorem empty_holds (found : fs.inodes p = some inode)
    (file : inode.entry.type = inodeRegular ∨ inode.entry.type = inodeDirectory)
    (empty : inode.entry.numBytes = 0#32) : Holds fs p 0 (fun _ => none) := by
  have zero : inode.entry.numBytes.toNat = 0 := by rw [empty]; rfl
  refine ⟨inode,found,?_,⟨by omega,fun k below => absurd below (by omega)⟩,zero,?_⟩
  · intro device
    rcases file with type | type <;> exact absurd (type.symm.trans device) (by decide)
  · funext x
    unfold content
    rw [if_neg (by omega)]

end Steps

-- Reading gives back, byte by byte, what was written last; and as long as there are
-- free blocks a write inside the bounds returns.
structure ReadsBack (env : Env) (fs : Fs) (p : Usize) (ws : List (Write Byte)) : Prop where
  size : ∃ inode, fs.inodes p = some inode ∧ inode.entry.numBytes.toNat = maxEnd ws
  read : ∀ offset count : Usize, offset.toNat ≤ maxEnd ws → offset.toNat+count.toNat < 2^64 → ∃ out,
    inodeRead env p offset count fs = .ok (BitVec.ofNat 64 (min count.toNat (maxEnd ws-offset.toNat)),out,fs) ∧
      out.length = min count.toNat (maxEnd ws-offset.toNat) ∧
      ∀ j, j < out.length → out[j]? = lastWritten ws (offset.toNat+j)
  write : ∀ (op : Nat) (src : List Byte) (offset : Usize), offset.toNat ≤ maxEnd ws → offset.toNat+src.length ≤ inodeMaxBytes →
    src.length/blockSize+3 ≤ freeBlocks env.sblock fs.cache →
    ∃ fs', inodeWrite env (some op) p src offset fs = .ok (BitVec.ofNat 64 src.length,fs')

theorem file_is_byte_array {env : Env} {start fs : Fs} (layout : Layout env.sblock)
    (consistent : Consistent env.sblock start) (ws : List WriteCall) (fits : ∀ w ∈ ws, w.Fits)
    (ran : Runs.exec (next env) start (ws.map WriteCall.call) = some fs) :
    (∀ p inode, start.inodes p = some inode → inode.entry.type = inodeRegular ∨ inode.entry.type = inodeDirectory →
      inode.entry.numBytes = 0#32 → ReadsBack env fs p (writesTo p ws)) ∧
    ∀ q other, start.inodes q = some other → other.entry.type = inodeRegular ∨ other.entry.type = inodeDirectory →
      Whole start.cache other.entry → (∀ w ∈ ws, w.p ≠ q) → ∀ offset count : Usize,
      offset.toNat ≤ other.entry.numBytes.toNat → offset.toNat+count.toNat < 2^64 → ∃ n out,
      inodeRead env q offset count start = .ok (n,out,start) ∧ inodeRead env q offset count fs = .ok (n,out,fs) := by
  refine ⟨?_,?_⟩
  · intro p inode found file empty
    obtain ⟨consistent',holds⟩ := writes_hold layout ws consistent fits ran (empty_holds found file empty)
    obtain ⟨inode',found',regular,_,sized,_⟩ := holds.there
    refine ⟨⟨inode',found',sized⟩,?_,?_⟩
    · intro offset count inside small
      exact holds.read env offset count inside small
    · intro op src offset starts bounded enough
      exact inodeWrite_returns layout consistent'.owned found' regular op src offset (by rw [sized]; exact starts) bounded enough
  · intro q other found file whole untouched offset count inside small
    have regular : other.entry.type ≠ inodeDevice := by
      intro device
      rcases file with type | type <;> exact absurd (type.symm.trans device) (by decide)
    have before : Holds start q other.entry.numBytes.toNat (content start.cache other.entry) :=
      ⟨other,found,regular,whole,rfl,rfl⟩
    obtain ⟨_,after⟩ := writes_hold layout ws consistent fits ran before
    rw [writesTo_none ws untouched] at after
    change Holds fs q other.entry.numBytes.toNat (content start.cache other.entry) at after
    obtain ⟨out,read,length,bytes⟩ := before.read env offset count inside small
    obtain ⟨out',read',length',bytes'⟩ := after.read env offset count inside small
    have same : out' = out := by
      refine List.ext_getElem? fun j => ?_
      by_cases below : j < out.length
      · rw [bytes j below,bytes' j (by omega)]
      · rw [List.getElem?_eq_none (by omega),List.getElem?_eq_none (by omega)]
    rw [same] at read'
    exact ⟨_,out,read,read'⟩

-- Two empty files in memory.
def twoFiles : List Call := [.alloc (some 0) inodeRegular,.alloc (some 0) inodeRegular,.get 1#64,.get 2#64]

theorem twoFiles_consistent (ran : Runs.execGuarded (next blankEnv) (Permitted mkfsSuperBlock) blankDisk twoFiles = some start) :
    Consistent blankEnv.sblock start :=
  run_consistent blank_layout blank_image.consistent (Runs.exec_guarded .start ran)

-- A count so large that offset + count wraps is not cut down to the size: the read at
-- offset 1 fails its assertion offset <= end.
theorem huge_count_fails : ¬ ∀ (env : Env) (start fs : Fs) (ws : List WriteCall) (p : Usize) (inode : Inode),
    Layout env.sblock → Consistent env.sblock start → (∀ w ∈ ws, w.Fits) →
    Runs.exec (next env) start (ws.map WriteCall.call) = some fs → start.inodes p = some inode →
    inode.entry.type = inodeRegular ∨ inode.entry.type = inodeDirectory → inode.entry.numBytes = 0#32 →
    ∀ offset count : Usize, offset.toNat ≤ maxEnd (writesTo p ws) → ∃ out,
      inodeRead env p offset count fs = .ok (BitVec.ofNat 64 (min count.toNat (maxEnd (writesTo p ws)-offset.toNat)),out,fs) := by
  intro overwrites
  obtain ⟨start,ready,facts⟩ := Runs.some_such
    (x := Runs.execGuarded (next blankEnv) (Permitted mkfsSuperBlock) blankDisk twoFiles)
    (p := fun start => ((start.inodes 1#64).any fun inode => decide (inode.entry.type = inodeRegular ∧ inode.entry.numBytes = 0#32)) &&
      (Runs.exec (next blankEnv) start [.write (some 0) 1#64 [7#8,8#8] 0#64]).any fun fs =>
        (inodeRead blankEnv 1#64 1#64 (BitVec.allOnes 64) fs).toOption.isNone) (by decide +kernel)
  obtain ⟨empty,wrote⟩ := Bool.and_eq_true_iff.mp facts
  obtain ⟨inode,found,empty⟩ := Runs.some_such empty
  obtain ⟨fs,ran,fails⟩ := Runs.some_such wrote
  obtain ⟨regular,zero⟩ := of_decide_eq_true empty
  obtain ⟨out,read⟩ := overwrites blankEnv start fs [⟨some 0,1#64,[7#8,8#8],0#64⟩] 1#64 inode blank_layout
    (twoFiles_consistent ready) (by decide) ran found (.inl regular) zero
    1#64 (BitVec.allOnes 64) (by decide)
  rw [read] at fails
  cases fails

theorem file_is_byte_array_of_two_files : ∃ start fs : Fs, ReadsBack blankEnv fs 1#64 [(0,[7#8,8#8]),(1,[5#8])] ∧
    (∃ out, inodeRead blankEnv 2#64 0#64 4#64 fs = .ok (1#64,out,fs) ∧ out[0]? = some 9#8) ∧
    Runs.exec (next blankEnv) start [.write (some 0) 1#64 [7#8,8#8] 0#64,.write (some 0) 2#64 [9#8] 0#64,
      .write (some 0) 1#64 [5#8] 1#64] = some fs := by
  obtain ⟨start,ready,facts⟩ := Runs.some_such
    (x := Runs.execGuarded (next blankEnv) (Permitted mkfsSuperBlock) blankDisk twoFiles)
    (p := fun start => ((start.inodes 1#64).any fun inode => decide (inode.entry.type = inodeRegular ∧ inode.entry.numBytes = 0#32)) &&
      (((start.inodes 2#64).any fun inode => decide (inode.entry.type = inodeRegular ∧ inode.entry.numBytes = 0#32)) &&
      (Runs.exec (next blankEnv) start [.write (some 0) 1#64 [7#8,8#8] 0#64,.write (some 0) 2#64 [9#8] 0#64,
        .write (some 0) 1#64 [5#8] 1#64]).any fun _ => true)) (by decide +kernel)
  obtain ⟨one,rest⟩ := Bool.and_eq_true_iff.mp facts
  obtain ⟨two,wrote⟩ := Bool.and_eq_true_iff.mp rest
  obtain ⟨inode,found,one⟩ := Runs.some_such one
  obtain ⟨inode',found',two⟩ := Runs.some_such two
  obtain ⟨fs,ran,_⟩ := Runs.some_such wrote
  obtain ⟨regular,zero⟩ := of_decide_eq_true one
  obtain ⟨regular',zero'⟩ := of_decide_eq_true two
  have files := (file_is_byte_array blank_layout (twoFiles_consistent ready)
    [⟨some 0,1#64,[7#8,8#8],0#64⟩,⟨some 0,2#64,[9#8],0#64⟩,⟨some 0,1#64,[5#8],1#64⟩]
    (by decide) ran).1
  have first := files 1#64 inode found (.inl regular) zero
  have second := files 2#64 inode' found' (.inl regular') zero'
  obtain ⟨out,read,length,bytes⟩ := second.read 0#64 4#64 (by decide) (by decide)
  refine ⟨start,fs,first,⟨out,read,?_⟩,ran⟩
  rw [bytes 0 (by rw [length]; decide)]
  decide

end InodeLayer
