import HonorKernel.ExecveAtomicity
import HonorKernel.ExecveStack
import HonorKernel.ImageView

-- The memory of a process that execve has gone through for.
namespace Execve
open DiskFormat BitSlice CacheView InodeLayer SysFile
open Overlay (At paint)
open PageTable (U64 Frame Trap Mem Space PgDir Page Segment Section Shows Held Same Sound Holes PageView pageSize pageBase stackPages shownByte shownOn pageOf vpage
  rootsOf initSections mapStack stackTop stackSection)
open FileTable (Kernel Process trap_ok fileSections)

-- What the file asks for, page by page, and what fillStack leaves on the stack.
def imageView (file : List Byte) : PageView := (segments file).foldl (fun view seg => seg.show view) fun _ => none

def stackBytes (spare : Nat → U64) (top : U64) (argv envp : List CString) : Nat → Option Byte :=
  paint (fun _ => some 0#8) (natWrites (fillStack spare top argv envp).2.2)

-- The byte at an address when the program starts; `blank` is in the zero page. None where
-- a load faults.
def entryByte (spare : Nat → U64) (blank : Page) (file : List Byte) (argv envp : List CString) (a : Nat) : Option Byte :=
  let top := stackTop (segments file)
  if 2^48 ≤ a then none
  else if top.toNat-stackPages*pageSize ≤ a ∧ a < top.toNat then stackBytes spare top argv envp a
  else shownByte blank (imageView file (pageOf a)) (a%pageSize)

def userMemory (mem : Mem) (root : Frame) (a : Nat) : Option Byte := if 2^48 ≤ a then none else PageTable.userByte mem root (BitVec.ofNat 64 a)

section Building
variable {n : Nat} {D : Type*} {holes : Holes} {zero root : Frame} {mem mem' : Mem} {roots : D → Option Frame}
  {d : D} {blank : Page} {view : PageView} {pt : Option Frame} {top : U64} {c : Setting} {file : List Byte}
  {dir : PgDir} {σ : Type} {s : Space σ}

theorem buildImage_shows (sound : Sound holes c.zero s) (built : buildImage c file s.mem = .ok (dir,mem')) :
    ∃ root, dir.pt = some root ∧ dir.sections = ((segments file).map Segment.made).reverse++initSections c.fp ∧
      Shows holes c.zero (s.mem.pages c.zero) mem' (Function.update (rootsOf s.dirs) none (some root)) root (imageView file) := by
  obtain ⟨mem₀,slabbed,built⟩ := Runs.bind_ok.mp built
  obtain ⟨⟨dir₁,mem₁⟩,init,built⟩ := Runs.bind_ok.mp built
  obtain ⟨_,_,pages⟩ := PageTable.slab_since c.small sound.sane.toFresh slabbed
  have sane₀ := PageTable.slab_sane c.small sound.sane slabbed
  obtain ⟨⟨root,_⟩,took,init⟩ := Runs.bind_ok.mp init
  cases init
  obtain ⟨sane₁,loose,bare⟩ := PageTable.kzallocPage_sane sane₀ took
  obtain ⟨_,kept,_,_⟩ := PageTable.kzallocPage_cases took
  have shows : Shows holes c.zero (s.mem.pages c.zero) mem₁
      (Function.update (rootsOf s.dirs) none (some root)) root fun _ => none := by
    refine ⟨sane₁.root loose bare none,?_,?_⟩
    · rw [kept,Function.update_of_ne (Ne.symm loose.notZero),pages]
    · funext v
      rw [Mem.view,PageTable.zero_lookup bare,if_neg (by decide)]
  obtain ⟨table,shows'⟩ := PageTable.loadSegments_shows (segments file) shows (Function.update_self ..) rfl built
  obtain ⟨_,list,_⟩ := PageTable.loadSegments_sane (segments file) shows.sane (Function.update_self ..) rfl built
  exact ⟨root,table,list,shows'⟩

theorem stack_held (view : PageView) (aligned : top.toNat%pageSize = 0) (low : stackPages*pageSize ≤ top.toNat)
    (high : top.toNat ≤ 2^48) :
    let pages := ((List.range stackPages).map (·+1)).map fun i => vpage (top-BitVec.ofNat 64 (i*pageSize))
    Held (shownOn pages (some 0#32768) view) (top.toNat-stackPages*pageSize) top.toNat (fun _ => some 0#8) ∧
      Same view (shownOn pages (some 0#32768) view) (top.toNat-stackPages*pageSize) top.toNat := by
  have unit : pageSize = 4096 := rfl
  have count : stackPages = 10 := rfl
  rw [unit] at aligned
  have low : 40960 ≤ top.toNat := low
  simp only [unit,count,Nat.reduceMul]
  have place : ∀ i, i < 10 → (top-BitVec.ofNat 64 ((i+1)*4096)).toNat = top.toNat-(i+1)*4096 := by
    intro i small
    have inside : (i+1)*4096 ≤ top.toNat := by omega
    exact toNat_below inside
  refine ⟨fun a above below => ?_,fun v away => ?_⟩
  · have member : pageOf a ∈ ((List.range 10).map (·+1)).map fun i => vpage (top-BitVec.ofNat 64 (i*4096)) := by
      have index : (top.toNat-1-a)/4096 < 10 := by omega
      rw [List.map_map]
      refine List.mem_map.mpr ⟨(top.toNat-1-a)/4096,List.mem_range.mpr index,?_⟩
      simp only [Function.comp_apply]
      rw [← PageTable.pageOf_toNat,place _ index]
      refine (PageTable.pageOf_same (by omega) (by omega)).mpr ?_
      rw [unit]
      omega
    exact ⟨0#32768,by rw [shownOn,if_pos member],by rw [PageTable.byteAt_zero]⟩
  · rw [shownOn,if_neg]
    intro member
    rw [List.map_map] at member
    obtain ⟨i,there,rfl⟩ := List.mem_map.mp member
    rw [List.mem_range] at there
    refine away (top.toNat-(i+1)*4096) (by omega) (by omega) ?_
    simp only [Function.comp_apply]
    rw [← PageTable.pageOf_toNat,place i there]

end Building

section Entering
variable {n : Nat} {c : Setting} {holes : Holes} {root : Frame} {mem : Mem} {k : Kernel n} {m m' : System n}
  {pid : Fin n} {dir : PgDir} {view : PageView} {blank : Page} {file : List Byte} {argv envp : List CString}
  {entry : U64}

theorem stackTop_toNat (low : (PageTable.maxEnd (segments file)).toNat+(stackPages+1)*pageSize ≤ 2^48) :
    (stackTop (segments file)).toNat%pageSize = 0 ∧ stackPages*pageSize ≤ (stackTop (segments file)).toNat ∧
    (stackTop (segments file)).toNat ≤ 2^48 := by
  have unit : pageSize = 4096 := rfl
  have count : stackPages = 10 := rfl
  unfold stackTop
  rw [BitVec.toNat_add,BitVec.toNat_add,PageTable.pageBase_toNat,BitVec.toNat_ofNat,BitVec.toNat_ofNat]
  rw [unit,count] at low ⊢
  omega

-- The new program: its page table, its registers, and its stack on top of the image.
structure Entered (c : Setting) (holes : Holes) (blank : Page) (file : List Byte) (argv envp : List CString) (sections : List Section) (view : PageView) (root : Frame)
    (pid : Fin n) (m' : System n) (view' : PageView) : Prop where
  few : argv.length < maxPointers ∧ envp.length < maxPointers
  dir : m'.space.dirs pid = some ⟨some root,stackSection (segments file)::sections⟩
  shows : Shows holes c.zero blank m'.space.mem (rootsOf m'.space.dirs) root view'
  held : Held view' ((stackTop (segments file)).toNat-stackPages*pageSize) (stackTop (segments file)).toNat
    (stackBytes c.spare (stackTop (segments file)) argv envp)
  same : Same view view' ((stackTop (segments file)).toNat-stackPages*pageSize) (stackTop (segments file)).toNat
  context : m'.contexts pid = ⟨BitVec.ofNat 64 argv.length,(fillStack c.spare (stackTop (segments file)) argv envp).2.1,
    (fillStack c.spare (stackTop (segments file)) argv envp).1,(ehdrOf file).entry⟩

theorem enter_entered (sound : Sound holes c.zero m.space)
    (shows : Shows holes c.zero blank mem (Function.update (rootsOf m.space.dirs) none (some root)) root view)
    (table : dir.pt = some root) (low : (PageTable.maxEnd (segments file)).toNat+(stackPages+1)*pageSize ≤ 2^48)
    (fits : frameSize argv envp ≤ stackPages*pageSize)
    (entered : enter c pid (ehdrOf file).entry (PageTable.maxEnd (segments file)) argv envp dir mem k m = .ok m') :
    ∃ view', Entered c holes blank file argv envp dir.sections view root pid m' view' := by
  obtain ⟨aligned,above,below⟩ := stackTop_toNat low
  have top : pageBase (PageTable.maxEnd (segments file))+BitVec.ofNat 64 pageSize+BitVec.ofNat 64
      (stackPages*pageSize) = stackTop (segments file) := rfl
  unfold enter at entered
  simp only [top] at entered
  obtain ⟨⟨pt₁,mem₁⟩,stacked,rest⟩ := Runs.bind_ok.mp entered
  split at rest
  · cases rest
  · rename_i few
    obtain ⟨⟨pt₂,mem₂⟩,copied,rest⟩ := Runs.bind_ok.mp rest
    obtain ⟨old,found,rest⟩ := Runs.bind_ok.mp rest
    obtain ⟨⟨gone,mem₃,k₁⟩,freed,rest⟩ := Runs.bind_ok.mp rest
    obtain ⟨p,_,rest⟩ := Runs.bind_ok.mp rest
    have found := PageTable.Space.dir_ok found
    rw [table] at stacked
    obtain ⟨rfl,shows₁⟩ := PageTable.mapStack_shows _ shows (Function.update_self ..) stacked
    obtain ⟨held₁,same₁⟩ := stack_held view aligned above below
    have unit : pageSize = 4096 := rfl
    have filled := fillStack_stacked c.spare argv envp ((stackTop (segments file)).toNat-stackPages*pageSize)
      (show (stackTop (segments file)).toNat%8 = 0 by rw [unit] at aligned; omega) (by omega)
    obtain ⟨rfl,view₂,shows₂,held₂,same₂⟩ := PageTable.copyouts_paints _ shows₁
        (Function.update_self ..) held₁ below filled.2.2.2 copied
    obtain ⟨oldRoot,table',here,_⟩ := sound.here found
    have here' : Function.update (rootsOf m.space.dirs) none (some root) (some pid.val) = some oldRoot := by
      rw [Function.update_of_ne (by simp)]
      exact here
    have shows₃ := PageTable.freePgdir_shows shows₂ (Function.update_self ..) here' (by simp) table'
        (sound.layout _ old found).nodup freed
    simp only [Except.ok.injEq] at rest
    subst rest
    refine ⟨view₂,⟨by omega,Function.update_self ..,⟨?_,shows₃.clear,shows₃.view⟩,held₂,same₁.trans same₂,Function.update_self ..⟩⟩
    simp only
    rw [PageTable.rootsOf_update _ _ (show (PgDir.mk (some root) _).pt = some root from rfl)]
    exact PageTable.image_named shows₃.sane

theorem Entered.memory {sections : List Section} {view' : PageView}
    (entered : Entered c holes blank file argv envp sections (imageView file) root pid m' view')
    (low : (PageTable.maxEnd (segments file)).toNat+(stackPages+1)*pageSize ≤ 2^48) :
    userMemory m'.space.mem root = entryByte c.spare blank file argv envp := by
  obtain ⟨_,_,below⟩ := stackTop_toNat low
  funext a
  unfold userMemory entryByte
  by_cases high : 2^48 ≤ a
  · rw [if_pos high]
    exact (if_pos high).symm
  · have value : (BitVec.ofNat 64 a).toNat = a := by
      rw [BitVec.toNat_ofNat]
      omega
    have offset : PageTable.pageOffset (BitVec.ofNat 64 a) = a%pageSize := by rw [PageTable.pageOffset,value]
    simp only
    rw [if_neg high,if_neg high,entered.shows.userByte,offset]
    change shownByte blank (view' (pageOf a)) (a%pageSize) = _
    by_cases onStack : (stackTop (segments file)).toNat-stackPages*pageSize ≤ a ∧ a < (stackTop (segments file)).toNat
    · obtain ⟨page,shown,byte⟩ := entered.held a onStack.1 onStack.2
      rw [if_pos onStack,shown,byte]
      rfl
    · rw [if_neg onStack,entered.same]
      intro b above beneath same
      have number := (PageTable.pageOf_same (by omega) (by omega)).mp same
      obtain ⟨aligned,room,_⟩ := stackTop_toNat low
      have unit : pageSize = 4096 := rfl
      have count : stackPages = 10 := rfl
      rw [unit] at aligned number
      rw [unit,count] at room above onStack
      omega

end Entering

section Running
variable {n : Nat} {c : Setting} {holes : Holes} {m m' : System n} {pid : Fin n} {p : Process} {path : List Byte}
  {argv envp : List CString} {fs : Fs} {ip : Usize} {inode : Inode}

theorem execve_entered (here : m.space.fs.procs pid = some p) (free : Unlocked m.space.fs.fs)
    (counted : ∀ q, 0 ≤ rcOf m.space.fs.fs q)
    (looked : namei c.env (some m.space.fs.op) p.cwd path m.space.fs.fs = .ok (some ip,fs))
    (plain : Plain fs ip inode) (sound : Sound holes c.zero m.space)
    (low : (PageTable.maxEnd (segments (bytesOf fs inode))).toNat+(stackPages+1)*pageSize ≤ 2^48)
    (fits : frameSize argv envp ≤ stackPages*pageSize) (ran : execve c pid path argv envp m = .ok (true,m')) :
    Loadable (bytesOf fs inode) ∧ ∃ root view', Entered c holes (m.space.mem.pages c.zero) (bytesOf fs inode) argv envp
      (((segments (bytesOf fs inode)).map Segment.made).reverse++initSections c.fp)
      (imageView (bytesOf fs inode)) root pid m' view' := by
  obtain ⟨unlocked,positive⟩ := namei_returns free counted looked plain.found
  rcases execve_returns here looked plain unlocked positive ran with ⟨failed,_⟩ | ⟨failed,_⟩ | ⟨_,loadable,dir,mem,fs',built,_,entered⟩
  · cases failed
  · cases failed
  · obtain ⟨root,table,list,shows⟩ := buildImage_shows sound built
    obtain ⟨view',done⟩ := enter_entered sound shows table low fits entered
    rw [list] at done
    exact ⟨loadable,root,view',done⟩

-- The stack at sp decodes to the strings, and x1 has the address of argv.
def Passes (pid : Fin n) (argv envp : List CString) (m : System n) : Prop :=
  ∃ dir root, m.space.dirs pid = some dir ∧ dir.pt = some root ∧ Decodes (userMemory m.space.mem root)
      (m.contexts pid).sp.toNat argv envp ∧
    (m.contexts pid).x1 = (m.contexts pid).sp+8#64

theorem Entered.passes {blank : Page} {file : List Byte} {sections : List Section} {view' : PageView} {root : Frame}
    (entered : Entered c holes blank file argv envp sections (imageView file) root pid m' view')
    (low : (PageTable.maxEnd (segments file)).toNat+(stackPages+1)*pageSize ≤ 2^48)
    (fits : frameSize argv envp ≤ stackPages*pageSize) :
    Passes pid argv envp m' ↔
      envp.length ≤ argv.length ∨ argv.length < envp.length ∧
      Spells (entryByte c.spare blank file argv envp) argv (envp.drop (argv.length+1)) := by
  obtain ⟨aligned,above,below⟩ := stackTop_toNat low
  have unit : pageSize = 4096 := rfl
  rw [unit] at aligned
  obtain ⟨stacked,sum,x1,_⟩ := fillStack_stacked c.spare argv envp ((stackTop (segments file)).toNat-stackPages*pageSize)
    (show (stackTop (segments file)).toNat%8 = 0 by omega) (by omega)
  have memory := entered.memory low
  have placed : At (entryByte c.spare blank file argv envp) (fillStack c.spare (stackTop (segments file)) argv envp).1.toNat
      (frameBytes c.spare (fillStack c.spare (stackTop (segments file)) argv envp).1 argv envp) := by
    refine stacked.pushed.same fun x from_ until_ => ?_
    rw [frameBytes_length] at until_
    unfold entryByte
    simp only
    rw [if_neg (by omega),if_pos (by omega)]
    rfl
  have decodes := decodes_iff placed sum
  unfold Passes
  rw [entered.dir,entered.context]
  simp only
  constructor
  · rintro ⟨dir,root',there,table,decoded,_⟩
    obtain rfl := Option.some.inj there
    obtain rfl := Option.some.inj table
    rw [memory] at decoded
    exact decodes.mp decoded
  · intro which
    refine ⟨_,root,rfl,rfl,?_,x1⟩
    rw [memory]
    exact decodes.mpr which

end Running

end Execve
