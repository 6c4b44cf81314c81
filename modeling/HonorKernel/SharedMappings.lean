import HonorKernel.FileOffsets
import HonorKernel.MappedFiles

-- file_write as one write to a file, and the pages that munmap hands to it.
namespace SysFile
open DiskFormat CacheView InodeLayer Overlay

section Writing
variable {env : Env} {ctx : Ctx} {ip off : Usize} {src : List Byte} {fs fs' : Fs} {size : Nat}
  {bytes : Nat → Option Byte}

theorem inodeWrite_inside {w : Usize} (holds : Holds fs ip size bytes)
    (ran : inodeWrite env ctx ip src off fs = .ok (w,fs')) : off.toNat ≤ size := by
  obtain ⟨inode,found,file,_,number,_⟩ := holds.there
  obtain ⟨same,there,ran⟩ := Runs.bind_ok.mp ran
  cases (Fs.inode_ok.mp there).symm.trans found
  simp only [if_neg file] at ran
  split at ran
  · rename_i asserted
    have below := asserted.1
    rw [BitVec.le_def,BitVec.toNat_setWidth,Nat.mod_eq_of_lt (by omega)] at below
    omega
  · cases ran

theorem Holds.lock (holds : Holds fs ip size bytes) (ran : inodeLock q fs = .ok fs') : Holds fs' ip size bytes := (inodeLock_frames ip ran).holds holds

theorem Holds.unlock (holds : Holds fs ip size bytes) (ran : inodeUnlock q fs = .ok fs') : Holds fs' ip size bytes := (inodeUnlock_frames ip ran).holds holds

theorem writeChunk_holds {w : Usize} (layout : Layout env.sblock) (consistent : Consistent env.sblock fs)
    (holds : Holds fs ip size bytes) (fits : off.toNat+src.length ≤ inodeMaxBytes)
    (ran : SysFile.writeChunk env ctx ip src off fs = .ok (w,fs')) :
    w.toNat = src.length ∧ Consistent env.sblock fs' ∧ Holds fs' ip (max size (off.toNat+src.length))
    (paint bytes [(off.toNat,src)]) := by
  obtain ⟨a,locked,ran⟩ := Runs.bind_ok.mp ran
  obtain ⟨⟨w₁,b⟩,wrote,ran⟩ := Runs.bind_ok.mp ran
  obtain ⟨c,unlocked,ran⟩ := Runs.bind_ok.mp ran
  cases ran
  have consistent₁ := inodeLock_consistent consistent locked
  have holds₁ := Holds.lock holds locked
  have called : call env a (WriteCall.call ⟨ctx,ip,src,off⟩) = .ok b := by simp [WriteCall.call,call,wrote]
  have consistent₂ := call_consistent layout consistent₁ (.write ctx ip src off) trivial called
  have holds₂ := write_step (w := ⟨ctx,ip,src,off⟩) layout consistent₁ fits called holds₁
  rw [if_pos rfl] at holds₂
  obtain ⟨inode,found,file,_⟩ := holds₁.there
  obtain ⟨rfl,_⟩ := inodeWrite_content layout consistent₁.owned found file fits wrote
  have bound : inodeMaxBytes = 71680 := rfl
  refine ⟨?_,inodeUnlock_consistent consistent₂ unlocked,Holds.unlock holds₂ unlocked⟩
  rw [BitVec.toNat_ofNat,Nat.mod_eq_of_lt (by omega)]

theorem fileWriteLoop_holds (layout : Layout env.sblock) (fuel op : Nat) {last : Usize}
    (consistent : Consistent env.sblock fs) (holds : Holds fs ip size bytes) (below : off.toNat ≤ size)
    (enough : src.length ≤ fuel) (fits : off.toNat+src.length ≤ inodeMaxBytes)
    (ran : fileWriteLoop env ip fuel op src off fs = .ok (last,fs')) :
    Consistent env.sblock fs' ∧ Holds fs' ip (max size (off.toNat+src.length)) (paint bytes [(off.toNat,src)]) := by
  have done : src = [] → Holds fs ip (max size (off.toNat+src.length)) (paint bytes [(off.toNat,src)]) := by
    rintro rfl
    rw [paint_nothing,List.length_nil,Nat.add_zero,Nat.max_eq_left below]
    exact holds
  induction fuel generalizing op src off fs size bytes with
  | zero =>
    cases ran
    exact ⟨consistent,done (List.length_eq_zero_iff.mp (by omega))⟩
  | succ fuel ih =>
    unfold fileWriteLoop at ran
    split at ran
    · rename_i empty
      cases ran
      exact ⟨consistent,done empty⟩
    · rename_i left
      have bound : inodeMaxBytes = 71680 := rfl
      have unit : maxOpWriteN = 1536 := rfl
      have length : (src.take maxOpWriteN).length = min maxOpWriteN src.length := List.length_take
      have positive := List.length_pos_iff.mpr left
      obtain ⟨⟨w,middle⟩,first,rest⟩ := Runs.bind_ok.mp ran
      obtain ⟨number,consistent₁,holds₁⟩ := writeChunk_holds layout consistent holds (by omega) first
      have moved : (off+w).toNat = off.toNat+(src.take maxOpWriteN).length := by
        rw [BitVec.toNat_add,number,Nat.mod_eq_of_lt (by omega)]
      have dropped : (src.drop w.toNat).length = src.length-(src.take maxOpWriteN).length := by rw [List.length_drop,number]
      simp only at rest
      have result := ih (op+1) consistent₁ holds₁ (by omega) (by omega) (by omega) rest (by
        intro empty
        rw [empty,paint_nothing,List.length_nil,Nat.add_zero,Nat.max_eq_left (by omega)]
        exact holds₁)
      have whole : src.take maxOpWriteN++src.drop w.toNat = src := by
        rw [number,length]
        by_cases short : src.length ≤ maxOpWriteN
        · rw [List.take_of_length_le short,Nat.min_eq_right short,List.drop_length,List.append_nil]
        · rw [Nat.min_eq_left (by omega),List.take_append_drop]
      refine ⟨result.1,?_⟩
      have painted := result.2
      rw [moved,paint_join,whole,dropped] at painted
      have reach : max (max size (off.toNat+(src.take maxOpWriteN).length))
          (off.toNat+(src.take maxOpWriteN).length+(src.length-(src.take maxOpWriteN).length)) =
          max size (off.toNat+src.length) := by omega
      rw [reach] at painted
      exact painted

theorem Holds.bounded (holds : Holds fs ip size bytes) : size ≤ inodeMaxBytes := by
  obtain ⟨inode,_,_,whole,number,_⟩ := holds.there
  exact number ▸ whole.size

theorem Holds.unique {size' : Nat} {bytes' : Nat → Option Byte} (holds : Holds fs ip size bytes)
    (holds' : Holds fs ip size' bytes') :
    size' = size ∧ bytes' = bytes := by
  obtain ⟨inode,found,_,_,number,content⟩ := holds.there
  obtain ⟨inode',found',_,_,number',content'⟩ := holds'.there
  cases found.symm.trans found'
  exact ⟨number'.symm.trans number,content'.symm.trans content⟩

theorem Holds.some_inside (holds : Holds fs ip size bytes) {x : Nat} (inside : x < size) : (bytes x).isSome = true := by
  obtain ⟨inode,_,_,_,number,painted⟩ := holds.there
  rw [← painted,content,if_pos (number.symm ▸ inside)]
  rfl

theorem fileWrite_holds (layout : Layout env.sblock) {op : Nat} {last : Usize}
    (consistent : Consistent env.sblock fs) (holds : Holds fs ip size bytes) (below : off.toNat ≤ size)
    (short : src.length < 2^64) (ran : fileWrite env op ip src off fs = .ok (last,fs')) :
    Consistent env.sblock fs' ∧ Holds fs' ip (max size (min (off.toNat+src.length) inodeMaxBytes))
    (paint bytes [(off.toNat,src.take (inodeMaxBytes-off.toNat))]) := by
  have bound := Holds.bounded holds
  have count := FileTable.writeCount_toNat off (by omega) (BitVec.ofNat 64 src.length)
  rw [BitVec.toNat_ofNat,Nat.mod_eq_of_lt short] at count
  have taken : src.take (writeCount off (BitVec.ofNat 64 src.length)).toNat = src.take (inodeMaxBytes-off.toNat) := by
    rw [count]
    by_cases fits : src.length ≤ inodeMaxBytes-off.toNat
    · rw [Nat.min_eq_left fits,List.take_length,List.take_of_length_le fits]
    · rw [Nat.min_eq_right (by omega)]
  have length : (src.take (inodeMaxBytes-off.toNat)).length = min (inodeMaxBytes-off.toNat) src.length := List.length_take
  rw [fileWrite,taken] at ran
  have result := fileWriteLoop_holds layout src.length op consistent holds below (by omega) (by omega) ran
  have reach : max size (off.toNat+(src.take (inodeMaxBytes-off.toNat)).length) = max size
      (min (off.toNat+src.length) inodeMaxBytes) := by omega
  rw [reach] at result
  exact result

-- A write that starts behind the end of the file does not return, unless it starts where
-- no file goes on.
theorem fileWrite_inside {op : Nat} {last : Usize} (holds : Holds fs ip size bytes) (some_bytes : src ≠ [])
    (short : src.length < 2^32) (low : off.toNat < 2^63) (ran : fileWrite env op ip src off fs = .ok (last,fs')) :
    off.toNat ≤ size ∨ off.toNat = inodeMaxBytes := by
  by_cases edge : off.toNat = inodeMaxBytes
  · exact .inr edge
  · left
    have bound : inodeMaxBytes = 71680 := rfl
    have positive := List.length_pos_iff.mpr some_bytes
    have count : 0 < (writeCount off (BitVec.ofNat 64 src.length)).toNat := by
      unfold writeCount
      split
      · rw [BitVec.toNat_ofNat]
        omega
      · rw [BitVec.toNat_sub,BitVec.toNat_ofNat]
        omega
    have left : src.take (writeCount off (BitVec.ofNat 64 src.length)).toNat ≠ [] := by
      rw [← List.length_pos_iff,List.length_take]
      omega
    obtain ⟨fuel,rounds⟩ : ∃ fuel, src.length = fuel+1 := ⟨src.length-1,by omega⟩
    rw [fileWrite,rounds,fileWriteLoop] at ran
    rw [← rounds,if_neg left] at ran
    obtain ⟨⟨w,middle⟩,first,_⟩ := Runs.bind_ok.mp ran
    obtain ⟨a,locked,first⟩ := Runs.bind_ok.mp first
    obtain ⟨⟨w₁,b⟩,wrote,_⟩ := Runs.bind_ok.mp first
    exact inodeWrite_inside (Holds.lock holds locked) wrote

end Writing

end SysFile

namespace PageTable
open DiskFormat BitSlice

-- `count` pages from `va` on.
def pagesFrom : Nat → U64 → List U64
  | 0,_ => []
  | count+1,va => va::pagesFrom count (va+BitVec.ofNat 64 pageSize)

theorem pagesOf_from (count : Nat) {first last : U64} (aligned : first.toNat%pageSize = 0)
    (ends : last.toNat = first.toNat+pageSize*count) :
    pagesOf first last = pagesFrom count first := by
  have page : pageSize = 4096 := rfl
  have base : pageBase first = first := by
    apply BitVec.eq_of_toNat_eq
    rw [pageBase_toNat]
    exact Nat.div_mul_cancel (Nat.dvd_of_mod_eq_zero aligned)
  have pages : pageCount first last = count := by
    rw [pageCount,base,ends,page]
    omega
  have from_ : ∀ (count : Nat) (va : U64), (List.range count).map (fun k => va+BitVec.ofNat 64 (pageSize*k)) = pagesFrom count va := by
    intro count
    induction count with
    | zero => exact fun _ => rfl
    | succ count ih =>
      intro va
      rw [List.range_succ_eq_map,List.map_cons,List.map_map,pagesFrom,← ih]
      refine congrArg₂ List.cons ?_ ?_
      · rw [Nat.mul_zero,BitVec.add_zero]
      · refine List.map_congr_left fun k _ => ?_
        apply BitVec.eq_of_toNat_eq
        simp only [Function.comp_apply,BitVec.toNat_add,BitVec.toNat_ofNat,page]
        omega
  rw [pagesOf,pages,base,from_]

-- What a process has at an address.
def userByte (mem : Mem) (root : Frame) (va : U64) : Option Byte :=
  if valid (mem.lookup root (vpage va)) then some (byteAt (mem.pages (frameOf (mem.lookup root (vpage va)))) (pageOffset va)) else none

theorem userByte_there {mem : Mem} {root : Frame} {va : U64} (some_byte : (userByte mem root va).isSome = true) :
    valid (mem.lookup root (vpage va)) := by
  unfold userByte at some_byte
  split at some_byte
  · assumption
  · cases some_byte

section Dropping
variable {D : Type*} {holes : Holes} {zero : Frame} {mem : Mem} {roots : D → Option Frame} {d d' : D}
  {root t : Frame} {v w : VPage} {e : U64}

theorem dropped_page (sane : Sane holes zero mem roots) (here : roots d = some root) (set : valid (mem.lookup root v))
    (reached : mem.table root (tableWay v) = some t) (maps : Maps mem roots d' w e) (other : ¬ (d' = d ∧ w = v)) :
    ((mem.kfreePage (frameOf (mem.lookup root v))).setEntry t v.2.2.2 0#64).pages (frameOf e) = mem.pages (frameOf e) := by
  have mine : Maps mem roots d v (mem.lookup root v) := ⟨root,here,rfl,set⟩
  have data : frameOf e ≠ t := by
    rintro rfl
    exact sane.page_data _ _ _ maps d (tableWay v) ⟨root,here,Nat.le_refl 3,reached⟩
  simp only [Mem.setEntry,Mem.setPage]
  rw [Function.update_of_ne data]
  by_cases same : frameOf e = frameOf (mem.lookup root v)
  · rcases sane.page_once _ _ _ _ _ _ maps mine same with mine' | isZero
    · exact absurd mine' other
    · obtain ⟨S,all,count⟩ := sane.zero_count
      have positive : 0 < S.card := Finset.card_pos.mpr ⟨_,all _ _ _ maps isZero⟩
      rw [← same,isZero,(kfreePage_kept (by omega)).2.2]
  · exact kfreePage_pages mem same

end Dropping

end PageTable

namespace FileTable
open DiskFormat CacheView InodeLayer SysFile Overlay
open PageTable (U64 Frame Trap Mem Files Space Section PgDir VPage Sane Maps inRam outside Sound splitAt vpage valid frameOf pageSize pageOffset pageBase pagesOf
  larger smaller cutPages stMmapShared)

section Parts
variable {n : Nat} {env : Env} {k k' : Kernel n} {f : Nat} {off : U64} {src : List Byte} {size : Nat}
  {bytes : Nat → Option Byte}

theorem writeAt_holds (layout : Layout env.sblock) (consistent : Consistent env.sblock k.fs)
    (open_ : (k.files f).type = .inode) (writable : (k.files f).writable = true)
    (holds : Holds k.fs (k.files f).ip size bytes) (some_bytes : src ≠ []) (short : src.length < 2^32)
    (low : off.toNat < 2^63) (ran : writeAt env f off src k = .ok k') :
    (off.toNat ≤ size ∨ off.toNat = inodeMaxBytes) ∧ (off.toNat ≤ size → k'.files = k.files ∧
    Consistent env.sblock k'.fs ∧
      Holds k'.fs (k.files f).ip (max size (min (off.toNat+src.length) inodeMaxBytes))
      (paint bytes [(off.toNat,src.take (inodeMaxBytes-off.toNat))])) := by
  have closed : ¬ ((k.files f).writable = false ∨ (k.files f).type = .pipe) := by
    rintro (unwritable | pipe)
    · cases unwritable.symm.trans writable
    · cases pipe.symm.trans open_
  unfold writeAt at ran
  simp only [if_neg closed,if_pos open_] at ran
  obtain ⟨⟨last,fs⟩,wrote,ran⟩ := Runs.bind_ok.mp ran
  cases ran
  have wrote := trap_ok wrote
  refine ⟨fileWrite_inside holds some_bytes short low wrote,fun below => ⟨rfl,?_⟩⟩
  exact fileWrite_holds layout consistent holds below (by omega) wrote

end Parts

section Cutting
variable {n : Nat} {env : Env} {k k' : Kernel n} {f : Nat} {size : Nat} {bytes : Nat → Option Byte} {st : Section}
  {last : U64} {pt : Option Frame} {mem mem' : Mem}

-- The i-th page of a mapping.
def pageAt (st : Section) (i : Nat) : U64 := st.first+BitVec.ofNat 64 (pageSize*i)

theorem pageAt_toNat (st : Section) (i : Nat) (low : st.first.toNat+pageSize*i ≤ 2^48) :
    (pageAt st i).toNat = st.first.toNat+pageSize*i := by
  rw [pageAt,BitVec.toNat_add,BitVec.toNat_ofNat]
  omega

theorem pageAt_step (i : Nat) : pageAt st i+BitVec.ofNat 64 pageSize = pageAt st (i+1) := by
  rw [pageAt,pageAt,Nat.mul_succ,BitVec.ofNat_add,BitVec.add_assoc]

theorem pageAt_injective {a b : Nat} (low : st.first.toNat+pageSize*(a+1) ≤ 2^48)
    (low' : st.first.toNat+pageSize*(b+1) ≤ 2^48) (same : vpage (pageAt st a) = vpage (pageAt st b)) : a = b := by
  have page : pageSize = 4096 := rfl
  rw [page] at low low'
  have first := pageAt_toNat st a (by rw [page]; omega)
  have second := pageAt_toNat st b (by rw [page]; omega)
  rw [page] at first second
  have number := PageTable.vpage_number same (by omega) (by omega)
  rw [page,first,second] at number
  omega

theorem inside_page {y : Nat} (aligned : st.first.toNat%pageSize = 0) (low : st.first.toNat+y < 2^48) :
    vpage (st.first+BitVec.ofNat 64 y) = vpage (pageAt st (y/pageSize)) ∧
    pageOffset (st.first+BitVec.ofNat 64 y) = y%pageSize := by
  have page : pageSize = 4096 := rfl
  rw [page] at aligned
  have whole : (st.first+BitVec.ofNat 64 y).toNat = st.first.toNat+y := by
    rw [BitVec.toNat_add,BitVec.toNat_ofNat]
    omega
  have base := pageAt_toNat st (y/pageSize) (by rw [page]; omega)
  rw [page] at base ⊢
  refine ⟨?_,?_⟩
  · simp only [vpage,PageTable.part,Prod.mk.injEq,Fin.mk.injEq,whole,base]
    simp only [Nat.reduceMul,Nat.reduceSub,Nat.reducePow]
    omega
  · rw [pageOffset,whole,page]
    omega

theorem part_of_page {i : Nat} (ends : st.first.toNat+pageSize*(i+1) ≤ last.toNat) (low : last.toNat ≤ 2^48) :
    larger (pageAt st i) st.first = pageAt st i ∧
    (smaller (pageAt st i+BitVec.ofNat 64 pageSize) last-pageAt st i).toNat = pageSize := by
  have page : pageSize = 4096 := rfl
  have step : pageSize*(i+1) = pageSize*i+pageSize := Nat.mul_succ ..
  have here := pageAt_toNat st i (by omega)
  have next := pageAt_toNat st (i+1) (by omega)
  refine ⟨?_,?_⟩
  · unfold larger
    split
    · rfl
    · rename_i less
      rw [BitVec.lt_def,here] at less
      apply BitVec.eq_of_toNat_eq
      omega
  · rw [pageAt_step]
    have least : (smaller (pageAt st (i+1)) last).toNat = (pageAt st (i+1)).toNat := by
      unfold smaller
      split
      · rfl
      · rename_i less
        rw [BitVec.lt_def,next] at less
        omega
    rw [BitVec.toNat_sub,least,here,next]
    omega

theorem cutPage_writes {i : Nat} (fp : st.fp = some f) (ends : st.first.toNat+pageSize*(i+1) ≤ last.toNat)
    (low : last.toNat ≤ 2^48)
    (ran : PageTable.cutPage (fileSections env) st last pt (pageAt st i) mem k = .ok (mem',k')) :
    ∃ slot frame middle, PageTable.getPte false (pageAt st i) pt mem = .ok (some slot,frame,middle) ∧
      mem' = (middle.kfreePage (frameOf (middle.at slot))).setAt slot 0#64 ∧
      writeAt env f (st.offset+pageAt st i-st.first)
      (getBytes (middle.pages (frameOf (middle.at slot))) 0 pageSize) k = .ok k' := by
  obtain ⟨⟨slot,frame,middle⟩,got,ran⟩ := Runs.bind_ok.mp ran
  obtain ⟨entry,there,ran⟩ := Runs.bind_ok.mp ran
  obtain ⟨k₁,written,ran⟩ := Runs.bind_ok.mp ran
  cases ran
  cases slot with
  | none => cases there
  | some slot =>
    cases there
    obtain ⟨start,count⟩ := part_of_page ends low
    rw [fp] at written
    simp only at written
    split at written
    · rw [start,count,Nat.min_self] at written
      exact ⟨entry,frame,middle,got,rfl,written⟩
    · cases written

-- The file behind `count` pages that were written from `off` on.
def afterCut (off count : Nat) (data : Nat → List Byte) (bytes : Nat → Option Byte) : Nat → Option Byte :=
  fun x => if off ≤ x ∧ x < min (off+pageSize*count) inodeMaxBytes then (data ((x-off)/pageSize))[(x-off)%pageSize]? else bytes x

def laterPage (first : List Byte) (rest : Nat → List Byte) : Nat → List Byte
  | 0 => first
  | j+1 => rest j

theorem laterPage_succ (first : List Byte) (rest : Nat → List Byte) (j : Nat) : laterPage first rest (j+1) = rest j := rfl

theorem afterCut_step (off count : Nat) (first : List Byte) (length : first.length = pageSize)
    (rest : Nat → List Byte) (bytes : Nat → Option Byte) :
    afterCut (off+pageSize) count rest (paint bytes [(off,first.take (inodeMaxBytes-off))]) = afterCut off (count+1)
    (laterPage first rest) bytes := by
  have page : pageSize = 4096 := rfl
  have taken : (first.take (inodeMaxBytes-off)).length = min (inodeMaxBytes-off) first.length := List.length_take
  funext x
  simp only [afterCut,paint_one]
  rw [page] at length ⊢
  generalize inodeMaxBytes = top at taken ⊢
  by_cases later : off+4096 ≤ x ∧ x < min (off+4096+4096*count) top
  · rw [if_pos later,if_pos (by omega)]
    have number : (x-off)/4096 = (x-(off+4096))/4096+1 := by omega
    have place : (x-off)%4096 = (x-(off+4096))%4096 := by omega
    rw [number,place,laterPage_succ]
  · rw [if_neg later]
    by_cases here : off ≤ x ∧ x < off+(first.take (top-off)).length
    · rw [if_pos here,if_pos (by omega)]
      have number : (x-off)/4096 = 0 := by omega
      have place : (x-off)%4096 = x-off := by omega
      rw [number,place,List.getElem?_take_of_lt (by omega),laterPage]
    · rw [if_neg here,if_neg (by omega)]

variable {D : Type*} {holes : PageTable.Holes} {zero root : Frame} {roots : D → Option Frame} {d : D}

-- `data` is what was in the pages, as long as all pages before were there.
theorem cutPages_holds (layout : Layout env.sblock) (here : roots d = some root) (fp : st.fp = some f)
    (low : last.toNat ≤ 2^48) (small : st.offset.toNat ≤ inodeMaxBytes) (count i : Nat)
    (ends : last.toNat = st.first.toNat+pageSize*(i+count)) (consistent : Consistent env.sblock k.fs)
    (open_ : (k.files f).type = .inode) (writable : (k.files f).writable = true)
    (holds : Holds k.fs (k.files f).ip size bytes) (reached : min (st.offset.toNat+pageSize*i) inodeMaxBytes ≤ size)
    (ran : cutPages (fileSections env) st last (some root) (PageTable.pagesFrom count (pageAt st i)) mem k = .ok (mem',k')) :
    ∃ data : Nat → List Byte, (Sane holes zero mem roots → ∀ j < count,
    (∀ l ≤ j, valid (mem.lookup root (vpage (pageAt st (i+l))))) →
        data j = getBytes (mem.pages (frameOf (mem.lookup root (vpage (pageAt st (i+j)))))) 0 pageSize) ∧
      Holds k'.fs (k.files f).ip (max size (if count = 0 then 0 else min (st.offset.toNat+pageSize*(i+count)) inodeMaxBytes))
        (afterCut (st.offset.toNat+pageSize*i) count data bytes) := by
  have page : pageSize = 4096 := rfl
  have bound : inodeMaxBytes = 71680 := rfl
  induction count generalizing i mem k size bytes with
  | zero =>
    cases ran
    refine ⟨fun _ => [],fun _ j none => absurd none (Nat.not_lt_zero j),?_⟩
    have same : afterCut (st.offset.toNat+pageSize*i) 0 (fun _ => []) bytes = bytes := by
      funext x
      exact if_neg (by omega)
    rw [same,if_pos rfl,Nat.max_eq_left (Nat.zero_le _)]
    exact holds
  | succ count ih =>
    obtain ⟨⟨mem₁,k₁⟩,first,rest⟩ := Runs.bind_ok.mp ran
    have step : pageSize*(i+1) = pageSize*i+pageSize := Nat.mul_succ ..
    have more : pageSize*(i+(count+1)) = pageSize*(i+1+count) := by rw [Nat.add_assoc i 1,Nat.add_comm 1 count]
    have span : pageSize*(i+1+count) = pageSize*(i+1)+pageSize*count := Nat.mul_add ..
    obtain ⟨slot,_,middle,got,rfl,wrote⟩ := cutPage_writes fp (by omega) low first
    obtain ⟨rfl,_,⟨none,_⟩ | ⟨t,same,there,value⟩⟩ := PageTable.getPte_reads got
    · cases none
    · cases same
      have entry : middle.at ⟨t,PageTable.part 3 (pageAt st i)⟩ = middle.lookup root (vpage (pageAt st i)) := value
      have cleared : (middle.kfreePage (frameOf (middle.at ⟨t,PageTable.part 3 (pageAt st i)⟩))).setAt
          ⟨t,PageTable.part 3 (pageAt st i)⟩ 0#64 =
          (middle.kfreePage (frameOf (middle.lookup root (vpage (pageAt st i))))).setEntry t (vpage (pageAt st i)).2.2.2 0#64 := by
        rw [entry]
        rfl
      rw [cleared] at rest
      rw [entry] at wrote
      generalize source : getBytes (middle.pages (frameOf (middle.lookup root (vpage (pageAt st i))))) 0 pageSize = src at wrote
      have length : src.length = pageSize := by rw [← source,getBytes_length]
      have nonempty : src ≠ [] := List.length_pos_iff.mp (by omega)
      have position : (st.offset+pageAt st i-st.first).toNat = st.offset.toNat+pageSize*i := by
        rw [BitVec.toNat_sub,BitVec.toNat_add,pageAt_toNat st i (by omega)]
        omega
      obtain ⟨inside,written⟩ := writeAt_holds layout consistent open_ writable holds nonempty (by omega)
          (by rw [position]; omega) wrote
      rw [position] at inside written
      obtain ⟨files,consistent₁,holds₁⟩ := written (by omega)
      have next : pageAt st i+BitVec.ofNat 64 pageSize = pageAt st (i+1) := pageAt_step i
      rw [next] at rest
      rw [← files] at open_ writable holds₁ ⊢
      have further : min (st.offset.toNat+pageSize*(i+1)) inodeMaxBytes ≤ max size
          (min (st.offset.toNat+pageSize*i+src.length) inodeMaxBytes) := by
        rw [length,step,← Nat.add_assoc]
        exact Nat.le_max_right _ _
      obtain ⟨data,reads,holds₂⟩ := ih (i+1) (by omega) consistent₁ open_ writable holds₁ further rest
      refine ⟨laterPage src data,?_,?_⟩
      · intro sane j below present
        cases j with
        | zero => exact source.symm
        | succ j =>
          have set : valid (middle.lookup root (vpage (pageAt st i))) := present 0 (Nat.zero_le _)
          have dropped := sane.dropped here there set
          -- The pages that are left are as they were.
          have kept : ∀ l, l < count →
              ((middle.kfreePage (frameOf (middle.lookup root (vpage (pageAt st i))))).setEntry t
              (vpage (pageAt st i)).2.2.2 0#64).lookup
              root (vpage (pageAt st (i+1+l))) = middle.lookup root (vpage (pageAt st (i+1+l))) ∧ vpage
                  (pageAt st (i+1+l)) ≠ vpage (pageAt st i) := by
            intro l inside
            have other : vpage (pageAt st (i+1+l)) ≠ vpage (pageAt st i) := by
              intro same
              have far := Nat.mul_le_mul_left pageSize (show i+1+l+1 ≤ i+1+count by omega)
              have near := Nat.mul_le_mul_left pageSize (show i+1 ≤ i+1+count by omega)
              have number := pageAt_injective (by omega) (by omega) same
              omega
            exact ⟨PageTable.dropped_lookup sane here there set other,other⟩
          have shift : ∀ l, i+1+l = i+(l+1) := fun l => by omega
          have result := reads dropped j (by omega) fun l upTo => by
            rw [(kept l (by omega)).1,shift]
            exact present (l+1) (by omega)
          obtain ⟨lookup,other⟩ := kept j (by omega)
          have mapped := present (j+1) (Nat.le_refl _)
          rw [← shift] at mapped ⊢
          rw [laterPage_succ,result,lookup,PageTable.dropped_page sane here set there ⟨root,here,rfl,mapped⟩ fun both => other both.2]
      · have sizes : ∀ top, max (max size (min (st.offset.toNat+pageSize*i+src.length) top))
          (if count = 0 then 0 else min (st.offset.toNat+pageSize*(i+1+count)) top) =
            max size (min (st.offset.toNat+pageSize*(i+(count+1))) top) := by
          intro top
          split
          · rename_i none
            subst none
            omega
          · omega
        rw [if_neg (Nat.succ_ne_zero count),← afterCut_step _ _ _ length,Nat.add_assoc st.offset.toNat,← step,← sizes]
        exact holds₂

end Cutting

-- A shared mapping of file `f`, open for writing, as sys_mmap leaves it.
structure SharedMapping {n : Nat} (s : Space (Kernel n)) (pid : Nat) (root : Frame) (st : Section) (f : Nat) : Prop where
  mapped : ∃ dir before after, s.dirs pid = some dir ∧ dir.pt = some root ∧ splitAt st.first dir.sections = some (before,st,after)
  flags : st.flags = stMmapShared
  file : st.fp = some f
  first : st.first.toNat%pageSize = 0
  last : st.last.toNat%pageSize = 0
  order : st.first.toNat ≤ st.last.toNat
  low : st.last.toNat ≤ 2^48
  type : (s.fs.files f).type = .inode
  writable : (s.fs.files f).writable = true

-- The bytes of the file that are in the unmapped range are those of the process, and the
-- file is otherwise as it was.
def WrittenBack (mem : Mem) (root : Frame) (st : Section) (length ip : U64) (size : Nat) (bytes : Nat → Option Byte) (fs' : Fs) : Prop :=
  ∃ bytes', Holds fs' ip size bytes' ∧ ∀ x < size, bytes' x =
    if st.offset.toNat ≤ x ∧ x < st.offset.toNat+length.toNat then PageTable.userByte mem root
        (st.first+BitVec.ofNat 64 (x-st.offset.toNat)) else bytes x

-- A part that does not end behind the file, all of whose pages are there; or a whole
-- mapping in which nothing differs from the file.
def BackWhen (mem : Mem) (root : Frame) (st : Section) (length : U64) (size : Nat) (bytes : Nat → Option Byte) : Prop :=
  if length < st.last-st.first then
    min (st.offset.toNat+length.toNat) inodeMaxBytes ≤ size ∧
      ∀ x < size, st.offset.toNat ≤ x → x < st.offset.toNat+length.toNat →
          (PageTable.userByte mem root (st.first+BitVec.ofNat 64 (x-st.offset.toNat))).isSome = true
  else ∀ x < size, st.offset.toNat ≤ x → x < st.offset.toNat+length.toNat → PageTable.userByte mem root
      (st.first+BitVec.ofNat 64 (x-st.offset.toNat)) = bytes x

section Unmapping
variable {n : Nat} {env : Env} {s s' : Space (Kernel n)} {pid f : Nat} {root zero : Frame} {refs : Frame → Int}
  {st : Section} {length : U64} {size : Nat} {bytes : Nat → Option Byte} {k k' : Kernel n}

theorem fileClose_holds {holders : Nat} {inode : Inode} (layout : Layout env.sblock)
    (consistent : Consistent env.sblock k.fs) (found : k.fs.inodes (k.files f).ip = some inode)
    (kept : inode.rc = 1 → inode.entry.numLinks = 0#16 → 1 < (k.files f).ref)
    (holds : Holds k.fs (k.files f).ip size bytes) (ran : fileClose env holders f k = .ok k') :
    Holds k'.fs (k.files f).ip size bytes := by
  unfold fileClose at ran
  simp only at ran
  split at ran
  · cases ran
  · split at ran
    · cases ran
      exact holds
    · split at ran
      · cases ran
        exact holds
      · rename_i single
        split at ran
        · cases ran
          exact holds
        · obtain ⟨fs₁,put,ran⟩ := Runs.bind_ok.mp ran
          cases ran
          rcases inodePut_frames layout consistent.owned (k.files f).ip put with frames | ⟨_,inode',found',only,unlinked⟩
          · exact frames.holds holds
          · cases found.symm.trans found'
            have more := kept only unlinked
            omega

theorem part_written_back (layout : Layout env.sblock) (sound : Sound (outside refs) zero s)
    (consistent : Consistent env.sblock s.fs.fs) (mapping : SharedMapping s pid root st f)
    (holds : Holds s.fs.fs (s.fs.files f).ip size bytes) (inside : st.offset.toNat ≤ size)
    (whole : length.toNat%pageSize = 0) (part : length < st.last-st.first)
    (ran : s.run (fileSections env) zero (.munmap pid st.first length) = .ok s') :
    WrittenBack s.mem root st length (s.fs.files f).ip size bytes s'.fs.fs ↔
    BackWhen s.mem root st length size bytes := by
  have page : pageSize = 4096 := rfl
  have top : inodeMaxBytes = 71680 := rfl
  have bound := Holds.bounded holds
  have differ : (st.last-st.first).toNat = st.last.toNat-st.first.toNat := by
    rw [BitVec.toNat_sub]
    have order := mapping.order
    omega
  have shorter := BitVec.lt_def.mp part
  have low := mapping.low
  have ends : (st.first+length).toNat = st.first.toNat+length.toNat := by
    rw [BitVec.toNat_add]
    omega
  obtain ⟨dir,before,after,there,table,split_⟩ := mapping.mapped
  obtain ⟨dir',found,ran⟩ := Runs.bind_ok.mp ran
  cases (PageTable.Space.dir_ok found).symm.trans there
  obtain ⟨root',table',here,_⟩ := sound.here there
  cases table'.symm.trans table
  obtain ⟨⟨dir₁,mem₁,k₁⟩,unmapped,ran⟩ := Runs.bind_ok.mp ran
  cases ran
  unfold PageTable.munmap at unmapped
  rw [split_] at unmapped
  simp only [mapping.flags,or_true,not_true_eq_false,if_false] at unmapped
  rw [if_neg (by rw [BitVec.le_def]; omega)] at unmapped
  obtain ⟨pages,loop,unmapped⟩ := Runs.bind_ok.mp unmapped
  obtain ⟨⟨mem₂,k₂⟩,cut,unmapped⟩ := Runs.bind_ok.mp unmapped
  cases unmapped
  obtain ⟨count,pages_⟩ : ∃ count, length.toNat = pageSize*count :=
      ⟨length.toNat/pageSize,(Nat.mul_div_cancel' (Nat.dvd_of_mod_eq_zero whole)).symm⟩
  have start : st.first = pageAt st 0 := by rw [pageAt,Nat.mul_zero,BitVec.add_zero]
  have list : pages = PageTable.pagesFrom count (pageAt st 0) := by
    rw [PageTable.pageLoop_ok loop,PageTable.pagesOf_from count mapping.first (by omega),← start]
  rw [list,table] at cut
  obtain ⟨data,reads,holds'⟩ := cutPages_holds layout here mapping.file (by omega) (by omega) count 0
      (by rw [Nat.zero_add]; omega) consistent mapping.type
    mapping.writable holds (by rw [Nat.mul_zero,Nat.add_zero]; exact Nat.le_trans (Nat.min_le_left _ _) inside) cut
  simp only [Nat.zero_add,Nat.mul_zero,Nat.add_zero] at reads holds'
  rw [BackWhen,if_pos part,pages_]
  constructor
  · rintro ⟨bytes',held,back⟩
    obtain ⟨sizes,_⟩ := Holds.unique held holds'
    refine ⟨?_,fun x below lower upper => ?_⟩
    · split at sizes
      · rename_i none
        rw [none,Nat.mul_zero,Nat.add_zero]
        exact Nat.le_trans (Nat.min_le_left _ _) inside
      · rw [← sizes]
        exact Nat.le_max_right _ _
    · have byte := back x below
      rw [pages_,if_pos ⟨lower,upper⟩] at byte
      rw [← byte]
      exact Holds.some_inside held below
  · rintro ⟨fits,present⟩
    have sizes : max size (if count = 0 then 0 else min (st.offset.toNat+pageSize*count) inodeMaxBytes) = size := by
      split
      · exact Nat.max_eq_left (Nat.zero_le _)
      · exact Nat.max_eq_left fits
    rw [sizes] at holds'
    refine ⟨_,holds',fun x below => ?_⟩
    rw [pages_,afterCut]
    by_cases range : st.offset.toNat ≤ x ∧ x < st.offset.toNat+pageSize*count
    · rw [if_pos range,if_pos ⟨range.1,Nat.lt_min.mpr ⟨range.2,by omega⟩⟩]
      -- The pages up to the one with this byte have bytes of the file in them.
      have valid_ : ∀ l ≤ (x-st.offset.toNat)/pageSize, valid (s.mem.lookup root (vpage (pageAt st l))) := by
        intro l upTo
        have place : pageSize*l ≤ x-st.offset.toNat := by
          have := Nat.mul_le_mul_left pageSize upTo
          have := Nat.mul_div_le (x-st.offset.toNat) pageSize
          omega
        have byte := PageTable.userByte_there (present (st.offset.toNat+pageSize*l) (by omega) (by omega) (by omega))
        rw [Nat.add_sub_cancel_left] at byte
        exact byte
      have index : (x-st.offset.toNat)/pageSize < count := Nat.div_lt_of_lt_mul (by omega)
      have low_ : st.first.toNat+(x-st.offset.toNat) < 2^48 := by omega
      obtain ⟨same,offset⟩ := inside_page mapping.first low_
      have within : (x-st.offset.toNat)%pageSize < pageSize := Nat.mod_lt _ (by decide)
      rw [reads sound.sane _ index valid_,PageTable.userByte,same,if_pos (valid_ _ (Nat.le_refl _)),offset]
      rw [getBytes,List.getElem?_map,List.getElem?_range within,Option.map_some,Nat.zero_add]
    · rw [if_neg range,if_neg fun both => range ⟨both.1,Nat.lt_of_lt_of_le both.2 (Nat.min_le_left _ _)⟩]

theorem whole_not_written (layout : Layout env.sblock) (sound : Sound (outside refs) zero s)
    (counters : ∀ h, ¬ inRam h → refs h ≠ 1) (consistent : Consistent env.sblock s.fs.fs)
    (mapping : SharedMapping s pid root st f) (holds : Holds s.fs.fs (s.fs.files f).ip size bytes)
    (kept : ∀ inode, s.fs.fs.inodes (s.fs.files f).ip = some inode → inode.rc = 1 → inode.entry.numLinks = 0#16 →
    1 < (s.fs.files f).ref) (whole : ¬ length < st.last-st.first) (ran :
    s.run (fileSections env) zero (.munmap pid st.first length) = .ok s') :
    Holds s'.fs.fs (s.fs.files f).ip size bytes := by
  obtain ⟨dir,before,after,there,table,split_⟩ := mapping.mapped
  obtain ⟨dir',found,ran⟩ := Runs.bind_ok.mp ran
  cases (PageTable.Space.dir_ok found).symm.trans there
  obtain ⟨root',table',here,_⟩ := sound.here there
  cases table'.symm.trans table
  obtain ⟨⟨dir₁,mem₁,k₁⟩,unmapped,ran⟩ := Runs.bind_ok.mp ran
  cases ran
  unfold PageTable.munmap at unmapped
  rw [split_] at unmapped
  simp only [mapping.flags,or_true,not_true_eq_false,if_false] at unmapped
  rw [BitVec.lt_def] at whole
  rw [if_pos (by rw [BitVec.le_def]; omega)] at unmapped
  obtain ⟨⟨dir₂,mem₂⟩,zeroed,unmapped⟩ := Runs.bind_ok.mp unmapped
  obtain ⟨pages,_,unmapped⟩ := Runs.bind_ok.mp unmapped
  obtain ⟨⟨mem₃,k₃⟩,freed,unmapped⟩ := Runs.bind_ok.mp unmapped
  obtain ⟨k₄,closed,unmapped⟩ := Runs.bind_ok.mp unmapped
  cases unmapped
  obtain ⟨rfl,sane⟩ := PageTable.userCopy_sane length.toNat sound.sane here table zeroed
  rw [table] at freed
  have same := PageTable.freeSectionPages_unwritten pages sane here counters freed
  subst same
  rw [mapping.file] at closed
  obtain ⟨inode,found,_⟩ := holds.there
  exact fileClose_holds layout consistent found (kept inode found) holds (trap_ok closed)

theorem shared_written_back (layout : Layout env.sblock) (sound : Sound (outside refs) zero s)
    (counters : ∀ h, ¬ inRam h → refs h ≠ 1) (consistent : Consistent env.sblock s.fs.fs)
    (mapping : SharedMapping s pid root st f) (holds : Holds s.fs.fs (s.fs.files f).ip size bytes)
    (inside : st.offset.toNat ≤ size) (kept : ∀ inode, s.fs.fs.inodes (s.fs.files f).ip = some inode → inode.rc = 1 →
    inode.entry.numLinks = 0#16 → 1 < (s.fs.files f).ref)
    (pages : length.toNat%pageSize = 0) (ran : s.run (fileSections env) zero (.munmap pid st.first length) = .ok s') :
    WrittenBack s.mem root st length (s.fs.files f).ip size bytes s'.fs.fs ↔
    BackWhen s.mem root st length size bytes := by
  by_cases part : length < st.last-st.first
  · exact part_written_back layout sound consistent mapping holds inside pages part ran
  · have holds' := whole_not_written layout sound counters consistent mapping holds kept part ran
    rw [BackWhen,if_neg part]
    constructor
    · rintro ⟨bytes',held,back⟩ x below lower upper
      obtain ⟨_,same⟩ := Holds.unique holds' held
      have byte := back x below
      rw [same,if_pos ⟨lower,upper⟩] at byte
      exact byte.symm
    · intro agree
      refine ⟨bytes,holds',fun x below => ?_⟩
      split
      · rename_i range
        exact (agree x below range.1 range.2).symm
      · rfl

end Unmapping

-- Two pages of the file, and a store to the first of them.
def twoPages : Section := ⟨stMmapShared,0x7fffe000#64,0x80000000#64,some 0,0#64,3#64⟩
def sharedStore : List PageTable.Call := [.start 1 none,.mmap 1 0 8192#64 true 3#64 0 0#64,.store 1 0x7fffe000#64 [65#8]]
def firstPage : PageTable.Call := .munmap 1 0x7fffe000#64 4096#64

def twoMapped (s : Space (Kernel 0)) : Bool :=
  (s.dirs 1).any fun dir => decide (dir.sections = [twoPages,⟨PageTable.stHeap,0#64,0#64,none,0#64,0#64⟩]) &&
    dir.pt.any fun root => decide (valid (s.mem.lookup root (vpage 0x7fffe000#64)))

-- The same mapping with a later state of the inodes.
def later (s : Space (Kernel 0)) (fs : Fs) : Space (Kernel 0) := ⟨s.mem,s.dirs,{ s.fs with fs := fs }⟩

theorem twoMapped_shared {s : Space (Kernel 0)} (fs : Fs) (mapped : twoMapped s = true)
    (type : (s.fs.files 0).type = .inode) (writable : (s.fs.files 0).writable = true) :
    ∃ root, valid (s.mem.lookup root (vpage 0x7fffe000#64)) ∧
      SharedMapping (later s fs) 1 root twoPages 0 := by
  obtain ⟨dir,found,facts⟩ := Runs.some_such mapped
  obtain ⟨sections,facts⟩ := Bool.and_eq_true_iff.mp facts
  obtain ⟨root,table,set⟩ := Runs.some_such facts
  refine ⟨root,of_decide_eq_true set,⟨dir,[],[⟨PageTable.stHeap,0#64,0#64,none,0#64,0#64⟩],found,table,?_⟩,rfl,rfl,
      by decide,by decide,by decide,by decide,type,writable⟩
  rw [of_decide_eq_true sections]
  rfl

theorem sharedStore_sound {fs : Fs} {s : Space (Kernel 0)} (consistent : Consistent blankEnv.sblock fs)
    (ran : Runs.exec (Space.next (fileSections blankEnv) PageTable.zeroPage) (oneFile true fs) sharedStore = some s) :
    Sound (outside PageTable.booted.mem.refs) PageTable.zeroPage s ∧ Consistent blankEnv.sblock s.fs.fs := by
  have path : Runs.Guarded (Space.next (fileSections blankEnv) PageTable.zeroPage)
      (fun s call => PageTable.Careful s call ∧ Harmless s call) (oneFile true fs) s := by
    refine Runs.exec_always .start (fun call member s => ?_) ran
    simp only [sharedStore,List.mem_cons,List.not_mem_nil,or_false] at member
    rcases member with rfl | rfl | rfl <;> exact ⟨trivial,trivial⟩
  have inv := mapped_invariant blank_layout (oneFile_sound true fs) booted_counters consistent path 0#64
  exact ⟨inv.1,inv.2.consistent⟩

def longWrite : WriteCall := ⟨some 9,1#64,List.replicate 4096 7#8,0#64⟩

structure Stored (s : Space (Kernel 0)) : Prop where
  sound : Sound (outside PageTable.booted.mem.refs) PageTable.zeroPage s
  consistent : Consistent blankEnv.sblock s.fs.fs
  mapped : twoMapped s = true
  file : s.fs.files 0 = ⟨.inode,2,true,true,0,1#64⟩
  empty : Holds s.fs.fs 1#64 0 fun _ => none

theorem sharedStore_facts : ∃ s : Space (Kernel 0), Stored s ∧
    ((Space.next (fileSections blankEnv) PageTable.zeroPage s firstPage).any fun s =>
        (s.fs.fs.inodes 1#64).any fun inode => decide (inode.entry.numBytes = 4096#32)) = true ∧
    (InodeLayer.next blankEnv s.fs.fs longWrite.call).any (fun fs' =>
      (Space.next (fileSections blankEnv) PageTable.zeroPage (later s fs') firstPage).isSome) = true := by
  obtain ⟨fs,ready,facts⟩ := Runs.some_such (x := Runs.execGuarded (InodeLayer.next blankEnv)
      (Permitted mkfsSuperBlock) blankDisk newFile)
    (p := fun fs => (Runs.exec (Space.next (fileSections blankEnv) PageTable.zeroPage) (oneFile true fs) sharedStore).any fun s =>
      ((twoMapped s && decide (s.fs.files 0 = ⟨.inode,2,true,true,0,1#64⟩)) &&
        (s.fs.fs.inodes 1#64).any fun inode => decide (inode.entry.type = inodeRegular ∧ inode.entry.numBytes = 0#32)) &&
      (((Space.next (fileSections blankEnv) PageTable.zeroPage s firstPage).any fun s =>
          (s.fs.fs.inodes 1#64).any fun inode => decide (inode.entry.numBytes = 4096#32)) &&
        (InodeLayer.next blankEnv s.fs.fs longWrite.call).any fun fs' =>
          (Space.next (fileSections blankEnv) PageTable.zeroPage (later s fs') firstPage).isSome)) (by decide +kernel)
  obtain ⟨s,ran,facts⟩ := Runs.some_such facts
  obtain ⟨state,calls⟩ := Bool.and_eq_true_iff.mp facts
  obtain ⟨shape,inode⟩ := Bool.and_eq_true_iff.mp state
  obtain ⟨mapped,file⟩ := Bool.and_eq_true_iff.mp shape
  obtain ⟨inode,found,empty⟩ := Runs.some_such inode
  obtain ⟨regular,zero⟩ := of_decide_eq_true empty
  obtain ⟨sound,consistent⟩ := sharedStore_sound (newFile_consistent ready) ran
  exact ⟨s,⟨sound,consistent,mapped,of_decide_eq_true file,empty_holds found (.inl regular) zero⟩,Bool.and_eq_true_iff.mp calls⟩

theorem Stored.shared {s : Space (Kernel 0)} (stored : Stored s) (fs : Fs) :
    ∃ root, valid (s.mem.lookup root (vpage 0x7fffe000#64)) ∧
    SharedMapping (later s fs) 1 root twoPages 0 :=
  twoMapped_shared fs stored.mapped (by rw [stored.file]) (by rw [stored.file])

theorem Stored.open_twice {s : Space (Kernel 0)} (stored : Stored s) (fs : Fs) :
    ((later s fs).fs.files 0).ip = 1#64 ∧ 1 < ((later s fs).fs.files 0).ref := by
  have file : (later s fs).fs.files 0 = ⟨.inode,2,true,true,0,1#64⟩ := stored.file
  rw [file]
  exact ⟨rfl,by decide⟩

-- The first of the two pages, with 4096 bytes in the file.
theorem shared_written_back_page : ∃ (s s' : Space (Kernel 0)) (root : Frame) (bytes : Nat → Option Byte),
    s.run (fileSections blankEnv) PageTable.zeroPage firstPage = .ok s' ∧ Holds s.fs.fs 1#64 4096 bytes ∧
      WrittenBack s.mem root twoPages 4096#64 1#64 4096 bytes s'.fs.fs := by
  obtain ⟨s,stored,_,calls⟩ := sharedStore_facts
  obtain ⟨fs',written,unmapped⟩ := Runs.some_such calls
  obtain ⟨s',ran⟩ := Option.isSome_iff_exists.mp unmapped
  have written := Runs.toOption_some written
  have ran := Runs.toOption_some ran
  have consistent := call_consistent blank_layout stored.consistent longWrite.call trivial written
  have length : longWrite.src.length = 4096 := List.length_replicate
  have fits : longWrite.Fits := by
    rw [WriteCall.Fits,length]
    decide
  have holds := write_step (w := longWrite) blank_layout stored.consistent fits written stored.empty
  have size : max 0 (longWrite.offset.toNat+4096) = 4096 := by decide
  rw [if_pos (show longWrite.p = 1#64 from rfl),length,size] at holds
  obtain ⟨root,set,mapping⟩ := stored.shared fs'
  obtain ⟨ip,twice⟩ := stored.open_twice fs'
  have unmapped : (later s fs').run (fileSections blankEnv) PageTable.zeroPage (.munmap 1 twoPages.first 4096#64) = .ok s' := ran
  have sound : Sound (outside PageTable.booted.mem.refs) PageTable.zeroPage (later s fs') :=
      ⟨stored.sound.sane,stored.sound.tables,stored.sound.layout⟩
  have back := shared_written_back blank_layout sound booted_counters consistent mapping
    (by rw [ip]; exact holds) (Nat.zero_le _) (fun _ _ _ _ => twice) (by decide) unmapped
  rw [ip] at back
  refine ⟨_,s',root,_,ran,holds,back.mpr ?_⟩
  rw [BackWhen,if_pos (by decide)]
  refine ⟨Nat.min_le_left _ _,fun x below _ _ => ?_⟩
  have small : x < 4096 := below
  have first : twoPages.first.toNat = 0x7fffe000 := rfl
  have page : vpage (twoPages.first+BitVec.ofNat 64 x) = vpage (pageAt twoPages (x/pageSize)) := (inside_page (by decide) (by omega)).1
  have zero : x/pageSize = 0 := Nat.div_eq_of_lt small
  have here : pageAt twoPages 0 = 0x7fffe000#64 := by decide
  rw [zero,here] at page
  have valid_ : valid ((later s fs').mem.lookup root (vpage (twoPages.first+BitVec.ofNat 64 x))) := by
    rw [page]
    exact set
  change (PageTable.userByte _ root (twoPages.first+BitVec.ofNat 64 x)).isSome = true
  rw [PageTable.userByte,if_pos valid_]
  rfl

-- An empty file: munmap of the first page makes it 4096 bytes long.
theorem shared_part_grows : ¬ ∀ (env : Env) (zero : Frame) (refs : Frame → Int) (s s' : Space (Kernel 0))
    (pid f : Nat) (root : Frame) (st : Section) (length : U64) (size : Nat)
    (bytes : Nat → Option Byte), Layout env.sblock → Sound (outside refs) zero s → (∀ h, ¬ inRam h → refs h ≠ 1) →
    Consistent env.sblock s.fs.fs →
    SharedMapping s pid root st f → Holds s.fs.fs (s.fs.files f).ip size bytes → st.offset.toNat ≤ size →
    1 < (s.fs.files f).ref →
    length.toNat%pageSize = 0 → length ≤ st.last-st.first →
    s.run (fileSections env) zero (.munmap pid st.first length) = .ok s' →
    WrittenBack s.mem root st length (s.fs.files f).ip size bytes s'.fs.fs := by
  intro writtenBack
  obtain ⟨s,stored,calls,_⟩ := sharedStore_facts
  obtain ⟨s',ran,grown⟩ := Runs.some_such calls
  obtain ⟨inode,found,longer⟩ := Runs.some_such grown
  obtain ⟨root,_,mapping⟩ := stored.shared s.fs.fs
  obtain ⟨ip,twice⟩ := stored.open_twice s.fs.fs
  obtain ⟨bytes',held,_⟩ := writtenBack blankEnv PageTable.zeroPage _ s s' 1 0 root twoPages 4096#64 0
      (fun _ => none) blank_layout stored.sound booted_counters
    stored.consistent mapping
        (by change Holds s.fs.fs ((later s s.fs.fs).fs.files 0).ip _ _; rw [ip]; exact stored.empty)
        (Nat.zero_le _) twice (by decide) (by decide)
    (Runs.toOption_some ran)
  have same : (s.fs.files 0).ip = 1#64 := ip
  rw [same] at held
  obtain ⟨inode',found',_,_,number,_⟩ := held.there
  cases found.symm.trans found'
  rw [of_decide_eq_true longer] at number
  cases number

end FileTable
