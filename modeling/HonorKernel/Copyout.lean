import HonorKernel.FreedPages

-- copyout of any range: what it writes, and when that is what was asked for.
namespace PageTable
open DiskFormat BitSlice

def InRange (va : U64) (n : Nat) (x : U64) : Prop := va.toNat ≤ x.toNat ∧ x.toNat < va.toNat+n

instance (va : U64) (n : Nat) (x : U64) : Decidable (InRange va n x) := inferInstanceAs (Decidable (_ ∧ _))

-- Where the byte at a user address is, and what it holds; nothing where no page is mapped.
def place (mem : Mem) (pt : Option Frame) (x : U64) : Option (Frame × Nat) :=
  pt.bind fun root => (mappedFrame mem root (vpage x)).map (·,pageOffset x)

def placeByte (mem : Mem) (spot : Frame × Nat) : Byte := byteAt (mem.pages spot.1) spot.2
def storedByte (mem : Mem) (pt : Option Frame) (x : U64) : Option Byte := (place mem pt x).map (placeByte mem)

-- Entries that map nothing are 0, and so point to page 0, which is no page of the kernel.
structure Orderly {D : Type*} (mem : Mem) (roots : D → Option Frame) : Prop extends Fresh mem roots where
  plain : ∀ d root v, roots d = some root → ¬ valid (mem.lookup root v) → mem.lookup root v = 0#64
  null_used : 0#36 ∉ mem.free
  null_data : ∀ d way, ¬ IsTable mem roots d way 0#36

section Asked
variable {D : Type*} [DecidableEq D]

-- What every user address is to hold after the call.
def askedByte (mem : Mem) (roots : D → Option Frame) (d : D) (va : U64) (src : List Byte) (d' : D) (x : U64) : Option Byte :=
  if d' = d ∧ InRange va src.length x then src[x.toNat-va.toNat]? else storedByte mem (roots d') x

structure CopiedOut (mem : Mem) (roots : D → Option Frame) (d : D) (va : U64) (src : List Byte) (roots' : D → Option Frame) (mem' : Mem) : Prop where
  bytes : ∀ d' x, x.toNat < 2^48 → storedByte mem' (roots' d') x = askedByte mem roots d va src d' x
  pages : ∀ q, (∀ x, InRange va src.length x → (place mem' (roots' d) x).map Prod.fst ≠ some q) →
      (∀ way, ¬ IsTable mem' roots' d way q) →
    mem'.pages q = mem.pages q

def CopiesOut (mem : Mem) (roots : D → Option Frame) (d : D) (va : U64) (src : List Byte) : Prop :=
  ∃ pt mem', copyout va src (roots d) mem = .ok (pt,mem') ∧ CopiedOut mem roots d va src (Function.update roots d pt) mem'

-- The range is mapped, and who shares one of its bytes has there already what comes.
structure Exclusive (mem : Mem) (roots : D → Option Frame) (d : D) (va : U64) (src : List Byte) : Prop where
  mapped : ∀ x, InRange va src.length x → (place mem (roots d) x).isSome
  alone : ∀ x d' x', InRange va src.length x → x'.toNat < 2^48 → place mem (roots d') x' = place mem (roots d) x →
    askedByte mem roots d va src d' x' = src[x.toNat-va.toNat]?

end Asked

section Orders
variable {D : Type*} {roots : D → Option Frame} {mem mem' : Mem} {d : D} {root q : Frame} {va : U64}
  {src : List Byte} {v : VPage}

theorem Orderly.grows (orderly : Orderly mem roots) (grows : Grows roots d mem mem') : Orderly mem' roots := by
  refine ⟨grows.fresh,fun d' root v found => ?_,grows.kept orderly.null_used,fun d' way there => ?_⟩
  · rw [grows.lookups d' root v found]
    exact orderly.plain d' root v found
  · rcases grows.added d' way _ there with old | ⟨_,new⟩
    · exact orderly.null_data d' way old
    · exact orderly.null_used new

theorem Orderly.setPage (orderly : Orderly mem roots) (data : ∀ d way, ¬ IsTable mem roots d way q) (page : Page) :
    Orderly (mem.setPage q page) roots ∧ ∀ d root v, roots d = some root →
    (mem.setPage q page).lookup root v = mem.lookup root v := by
  obtain ⟨fresh,tables,lookups⟩ := setPage_fresh orderly.toFresh data page
  refine ⟨⟨fresh,fun d root v found => ?_,orderly.null_used,fun d way there => orderly.null_data d way
      ((tables _ _ _).mp there)⟩,lookups⟩
  rw [lookups d root v found]
  exact orderly.plain d root v found

theorem Orderly.target (orderly : Orderly mem roots) (here : roots d = some root) (v : VPage) (d' : D)
    (way : List Index) :
    ¬ IsTable mem roots d' way (frameOf (mem.lookup root v)) := by
  by_cases set : valid (mem.lookup root v)
  · exact orderly.page_data d v _ ⟨root,here,rfl,set⟩ d' way
  · rw [orderly.plain d root v here set,show frameOf 0#64 = 0#36 by decide]
    exact orderly.null_data d' way

theorem copyoutLoop_entries (fuel : Nat) (orderly : Orderly mem roots) (here : roots d = some root)
    (ran : copyoutLoop fuel va src (some root) mem = .ok (pt,mem')) :
    pt = some root ∧ ∀ d' root' v, roots d' = some root' → mem'.lookup root' v = mem.lookup root' v := by
  induction fuel generalizing va src mem with
  | zero =>
    cases ran
    exact ⟨rfl,fun _ _ _ _ => rfl⟩
  | succ fuel ih =>
    unfold copyoutLoop at ran
    split at ran
    · cases ran
      exact ⟨rfl,fun _ _ _ _ => rfl⟩
    · obtain ⟨⟨slot,pt',middle⟩,got,ran⟩ := Runs.bind_ok.mp ran
      obtain ⟨grows,rfl,t,rfl,_,value⟩ := getPte_grows orderly.toFresh here got
      obtain ⟨_,found,ran⟩ := Runs.bind_ok.mp ran
      cases found
      have orderly' := orderly.grows grows
      have entry : middle.at ⟨t,part 3 va⟩ = middle.lookup root (vpage va) := by
        rw [grows.lookups d root _ here]
        exact value
      simp only [entry] at ran
      obtain ⟨orderly'',lookups⟩ := orderly'.setPage (orderly'.target here (vpage va)) _
      obtain ⟨same,rest⟩ := ih orderly'' ran
      refine ⟨same,fun d' root' v found => ?_⟩
      rw [rest d' root' v found,lookups d' root' v found,grows.lookups d' root' v found]

theorem walk_found (way : List Index) (p : Frame) (mem : Mem) (found : (RadixTree.node (child mem) p way).isSome) :
    mem.walk true way p = .ok (RadixTree.node (child mem) p way,mem) := by
  induction way generalizing p with
  | nil => rfl
  | cons i way ih =>
    rw [RadixTree.node_cons] at found ⊢
    unfold Mem.walk Mem.descend
    by_cases set : valid (mem.entry p i)
    · have below : child mem p i = some (frameOf (mem.entry p i)) := if_pos set
      rw [below,Option.bind_some] at found ⊢
      rw [if_pos set]
      exact ih _ found
    · have none : child mem p i = none := if_neg set
      rw [none] at found
      cases found

theorem getPte_found (set : valid (mem.lookup root (vpage va))) :
    ∃ slot, getPte true va (some root) mem = .ok (some slot,some root,mem) ∧
    mem.at slot = mem.lookup root (vpage va) := by
  unfold Mem.lookup at set ⊢
  cases reached : mem.table root (tableWay (vpage va)) with
  | none =>
    rw [reached] at set
    change valid 0#64 at set
    exact absurd set (by decide)
  | some t =>
    have walked := walk_found [part 0 va,part 1 va,part 2 va] root mem (Option.isSome_iff_exists.mpr ⟨t,reached⟩)
    have is : RadixTree.node (child mem) root [part 0 va,part 1 va,part 2 va] = some t := reached
    rw [is] at walked
    refine ⟨⟨t,part 3 va⟩,?_,rfl⟩
    unfold getPte
    simp only [bind,Except.bind,walked]
    rfl

theorem place_congr {pt : Option Frame} (same : ∀ root, pt = some root → ∀ v, mem'.lookup root v = mem.lookup root v)
    (x : U64) :
    place mem' pt x = place mem pt x := by
  cases pt with
  | none => rfl
  | some root =>
    unfold place
    rw [Option.bind_some,Option.bind_some,mappedFrame,mappedFrame,same root rfl]

theorem place_eq_some {x : U64} {spot : Frame × Nat} : place mem (some root) x = some spot ↔
    valid (mem.lookup root (vpage x)) ∧ frameOf (mem.lookup root (vpage x)) = spot.1 ∧ pageOffset x = spot.2 := by
  unfold place
  rw [Option.bind_some,Option.map_eq_some_iff]
  constructor
  · rintro ⟨q,mapped,rfl⟩
    obtain ⟨set,frame⟩ := mappedFrame_eq_some.mp mapped
    exact ⟨set,frame,rfl⟩
  · rintro ⟨set,frame,offset⟩
    exact ⟨spot.1,mappedFrame_eq_some.mpr ⟨set,frame⟩,by rw [offset]⟩

-- After a copy every byte of physical memory comes from an address of the range that is
-- mapped there, or no address of the range is and the byte is as before.
def Written (mem : Mem) (root : Frame) (va : U64) (src : List Byte) (mem' : Mem) : Prop :=
  ∀ spot : Frame × Nat, spot.2 < pageSize →
    (∃ x, InRange va src.length x ∧ place mem (some root) x = some spot ∧ src[x.toNat-va.toNat]? = some (placeByte mem' spot)) ∨
    (∀ x, InRange va src.length x → place mem (some root) x ≠ some spot) ∧ placeByte mem' spot = placeByte mem spot

theorem Written.append {mem'' : Mem} {next : U64} {one two : List Byte} (first : Written mem root va one mem')
    (second : Written mem' root next two mem'') (here : next.toNat = va.toNat+one.length)
    (same : ∀ x, place mem' (some root) x = place mem (some root) x) : Written mem root va (one++two) mem'' := by
  unfold Written InRange at first second ⊢
  intro spot small
  have length : (one++two).length = one.length+two.length := List.length_append
  rcases second spot small with ⟨x,range,there,byte⟩ | ⟨none,kept⟩
  · refine .inl ⟨x,by omega,by rw [← same]; exact there,?_⟩
    rw [List.getElem?_append_right (by omega),← byte]
    congr 1
    omega
  · rcases first spot small with ⟨x,range,there,byte⟩ | ⟨none',kept'⟩
    · refine .inl ⟨x,by omega,there,?_⟩
      rw [List.getElem?_append_left (by omega),byte,kept]
    · refine .inr ⟨fun x range there => ?_,kept.trans kept'⟩
      by_cases early : x.toNat < va.toNat+one.length
      · exact none' x (by omega) there
      · exact none x (by omega) ((same x).trans there)

theorem vpage_within {x y : U64} (low : x.toNat < 2^48) (low' : y.toNat < 2^48)
    (same : x.toNat/pageSize = y.toNat/pageSize) : vpage x = vpage y := by
  refine (same_page low low').mpr (BitVec.eq_of_toNat_eq ?_)
  rw [pageBase_toNat,pageBase_toNat]
  rw [show pageSize = 4096 from rfl] at *
  omega

theorem written_page (src : List Byte) (set : valid (mem.lookup root (vpage va))) (fits : va.toNat+src.length ≤ 2^48)
    (inside : pageOffset va+src.length ≤ pageSize) :
    Written mem root va src (mem.setPage (frameOf (mem.lookup root (vpage va)))
      (setBytes (mem.pages (frameOf (mem.lookup root (vpage va)))) (pageOffset va) src)) := by
  have unit : pageSize = 4096 := rfl
  have offset : ∀ x : U64, pageOffset x = x.toNat%4096 := fun _ => rfl
  have bits : 8*(pageOffset va+src.length) ≤ 32768 := by omega
  rintro ⟨q,o⟩ small
  have byte : placeByte (mem.setPage (frameOf (mem.lookup root (vpage va)))
      (setBytes (mem.pages (frameOf (mem.lookup root (vpage va)))) (pageOffset va) src)) (q,o) =
      if q = frameOf (mem.lookup root (vpage va)) ∧ pageOffset va ≤ o ∧ o < pageOffset va+src.length then src.getD
          (o-pageOffset va) 0#8
      else placeByte mem (q,o) := by
    unfold placeByte Mem.setPage
    by_cases target : q = frameOf (mem.lookup root (vpage va))
    · simp only [target,Function.update_self]
      rw [byteAt_setBytes _ _ _ bits]
      simp only [true_and]
    · simp only [Function.update_of_ne target]
      rw [if_neg (fun all => target all.1)]
  have page : ∀ x, InRange va src.length x → vpage x = vpage va := by
    rintro x ⟨low,high⟩
    refine vpage_within (by omega) (by omega) ?_
    rw [offset] at inside
    rw [unit] at inside ⊢
    omega
  by_cases hit : q = frameOf (mem.lookup root (vpage va)) ∧ pageOffset va ≤ o ∧ o < pageOffset va+src.length
  · obtain ⟨rfl,low,high⟩ := hit
    have number : (va+BitVec.ofNat 64 (o-pageOffset va)).toNat = va.toNat+(o-pageOffset va) := by
      rw [BitVec.toNat_add,BitVec.toNat_ofNat]
      omega
    have range : InRange va src.length (va+BitVec.ofNat 64 (o-pageOffset va)) := by
      unfold InRange
      omega
    refine .inl ⟨_,range,place_eq_some.mpr ?_,?_⟩
    · rw [page _ range,offset,number]
      rw [offset] at low inside ⊢
      exact ⟨set,rfl,by simp only; omega⟩
    · rw [byte,if_pos ⟨rfl,low,high⟩,number,Nat.add_sub_cancel_left,List.getD_eq_getElem?_getD,List.getElem?_eq_getElem (by omega)]
      rfl
  · refine .inr ⟨fun x range there => hit ?_,by rw [byte,if_neg hit]⟩
    obtain ⟨_,frame,offset'⟩ := place_eq_some.mp there
    rw [page x range] at frame
    obtain ⟨low,high⟩ := range
    simp only at frame offset'
    rw [offset] at offset' inside
    rw [offset]
    refine ⟨frame.symm,?_,?_⟩ <;> omega

theorem copyoutLoop_writes (fuel : Nat) (enough : src.length ≤ fuel) (fits : va.toNat+src.length ≤ 2^48)
    (orderly : Orderly mem roots) (here : roots d = some root)
    (mapped : ∀ x, InRange va src.length x → valid (mem.lookup root (vpage x))) :
    ∃ mem', copyoutLoop fuel va src (some root) mem = .ok (some root,mem') ∧ Written mem root va src mem' := by
  induction fuel generalizing va src mem with
  | zero =>
    obtain rfl := List.eq_nil_of_length_eq_zero (Nat.le_zero.mp enough)
    exact ⟨mem,rfl,fun spot _ => .inr ⟨fun x range => by unfold InRange at range; rw [List.length_nil] at range; omega,rfl⟩⟩
  | succ fuel ih =>
    by_cases empty : src = []
    · subst empty
      exact ⟨mem,copyoutLoop_nil _ _ _ _,fun spot _ =>
          .inr ⟨fun x range => by unfold InRange at range; rw [List.length_nil] at range; omega,rfl⟩⟩
    have positive : 0 < src.length := List.length_pos_iff.mpr empty
    have unit : pageSize = 4096 := rfl
    have offset : pageOffset va = va.toNat%4096 := rfl
    have set := mapped va ⟨Nat.le_refl _,by omega⟩
    obtain ⟨slot,got,entry⟩ := getPte_found set
    obtain ⟨n,count⟩ : ∃ n, n = min src.length (pageSize-pageOffset va) := ⟨_,rfl⟩
    have taken : (src.take n).length = n := by
      rw [List.length_take]
      omega
    have dropped : (src.drop n).length = src.length-n := List.length_drop
    have next : (va+BitVec.ofNat 64 n).toNat = va.toNat+n := by
      rw [BitVec.toNat_add,BitVec.toNat_ofNat]
      omega
    obtain ⟨orderly',lookups⟩ := orderly.setPage (orderly.target here (vpage va))
      (setBytes (mem.pages (frameOf (mem.lookup root (vpage va)))) (pageOffset va) (src.take n))
    have first := written_page (src.take n) set (by omega) (by omega)
    have later : ∀ x, InRange (va+BitVec.ofNat 64 n) (src.drop n).length x → InRange va src.length x := by
      intro x range
      unfold InRange at range ⊢
      omega
    have fits' : (va+BitVec.ofNat 64 n).toNat+(src.drop n).length ≤ 2^48 := by
      rw [dropped]
      omega
    obtain ⟨mem',ran,second⟩ := ih (by rw [dropped]; omega) fits' orderly' fun x range => by
      rw [lookups d root _ here]
      exact mapped x (later x range)
    refine ⟨mem',?_,?_⟩
    · unfold copyoutLoop
      simp only [if_neg empty,bind,Except.bind,got,notNull,entry,← count]
      exact ran
    · have whole := first.append second (by rw [taken]; exact next) (place_congr fun root' found v => by
        cases found
        exact lookups d root v here)
      rwa [List.take_append_drop] at whole

end Orders

section Results
variable {D : Type} [DecidableEq D] {roots : D → Option Frame} {mem mem' : Mem} {d : D} {root q : Frame} {va : U64}
  {src : List Byte}

theorem Orderly.rooted (orderly : Orderly mem roots) (ran : mem.kzallocPage = .ok (q,mem')) (d : D) :
    Orderly mem' (Function.update roots d (some q)) ∧ mem'.pages q = 0#32768 ∧
      ∀ d root v, roots d = some root → mem'.lookup root v = mem.lookup root v := by
  obtain ⟨queue,pages,_,_⟩ := kzallocPage_cases ran
  have inQueue : q ∈ mem.free := by
    rw [queue]
    exact List.mem_cons_self
  have later : ∀ p, p ∉ mem.free → p ∉ mem'.free := by
    intro p used there
    rw [queue] at used
    exact used (List.mem_cons_of_mem _ there)
  have zero : mem'.pages q = 0#32768 := by rw [pages,Function.update_self]
  have own := kzallocPage_tables orderly.tables ran d
  have same : ∀ d way t, IsTable mem roots d way t → mem'.pages t = mem.pages t ∧ t ∉ mem'.free := by
    intro d way t there
    have used := orderly.table_used _ _ _ there
    refine ⟨?_,later t used⟩
    rw [pages,Function.update_of_ne]
    rintro rfl
    exact used inQueue
  obtain ⟨_,back,lookups⟩ := orderly.tables.keep own.nodup same
  have maps : ∀ d' v e, Maps mem' (Function.update roots d (some q)) d' v e → Maps mem roots d' v e := by
    intro d' v e mapped
    obtain ⟨root,found,value,set⟩ := maps_update zero mapped
    rw [lookups d' root v found] at value
    exact ⟨root,found,value,set⟩
  have tables : ∀ d' way t, IsTable mem' (Function.update roots d (some q)) d' way t → IsTable mem roots d' way t ∨ t = q :=
    fun d' way t there => (isTable_update zero there).imp (back d' way t) fun new => new.2.2
  refine ⟨⟨⟨own.nodup,own.once,own.used,?_,?_⟩,?_,later _ orderly.null_used,?_⟩,zero,lookups⟩
  · intro d' v e mapped
    exact later _ (orderly.page_used _ _ _ (maps _ _ _ mapped))
  · intro d' v e mapped d₁ way there
    rcases tables _ _ _ there with old | is
    · exact orderly.page_data _ _ _ (maps _ _ _ mapped) _ _ old
    · exact orderly.page_used _ _ _ (maps _ _ _ mapped) (is ▸ inQueue)
  · intro d' root v found invalid
    by_cases mine : d' = d
    · subst mine
      rw [Function.update_self] at found
      cases found
      exact zero_lookup zero v
    · rw [Function.update_of_ne mine] at found
      rw [lookups d' root v found] at invalid ⊢
      exact orderly.plain d' root v found invalid
  · intro d' way there
    rcases tables _ _ _ there with old | is
    · exact orderly.null_data _ _ old
    · exact orderly.null_used (is ▸ inQueue)

theorem copyoutLoop_root (fuel : Nat) (more : src ≠ []) (mem : Mem) : copyoutLoop (fuel+1) va src none mem = (do
    let (root,mem) ← mem.kzallocPage
    copyoutLoop (fuel+1) va src (some root) mem) := by
  simp only [copyoutLoop,if_neg more]
  rw [getPte_root]
  cases mem.kzallocPage with
  | error trap => rfl
  | ok r => rfl

theorem copyout_places (orderly : Orderly mem roots) (ran : copyout va src (roots d) mem = .ok (pt,mem')) :
    ∀ d' x, place mem' (Function.update roots d pt d') x = place mem (roots d') x := by
  intro d' x
  unfold copyout at ran
  cases here : roots d with
  | some root =>
    rw [here] at ran
    obtain ⟨rfl,lookups⟩ := copyoutLoop_entries _ orderly here ran
    rw [← here,Function.update_eq_self]
    exact place_congr (fun root' found v => lookups d' root' v found) x
  | none =>
    rw [here] at ran
    cases length : src.length with
    | zero =>
      rw [length] at ran
      cases ran
      rw [← here,Function.update_eq_self]
    | succ fuel =>
      have more : src ≠ [] := by
        rintro rfl
        cases length
      rw [length,copyoutLoop_root fuel more] at ran
      obtain ⟨⟨root,middle⟩,took,ran⟩ := Runs.bind_ok.mp ran
      obtain ⟨orderly',zero,others⟩ := orderly.rooted took d
      obtain ⟨rfl,lookups⟩ := copyoutLoop_entries _ orderly' (Function.update_self ..) ran
      have same : place mem' (Function.update roots d (some root) d') x = place middle (Function.update roots d (some root) d') x :=
        place_congr (fun root' found v => lookups d' root' v found) x
      rw [same]
      by_cases mine : d' = d
      · subst mine
        rw [Function.update_self,here]
        unfold place
        rw [Option.bind_some,mappedFrame,zero_lookup zero]
        rfl
      · rw [Function.update_of_ne mine]
        exact place_congr (fun root' found v => others d' root' v found) x

-- The entries are as before, so every address of the range was mapped before.
theorem copiesOut_exclusive (orderly : Orderly mem roots) (fits : va.toNat+src.length ≤ 2^48)
    (right : CopiesOut mem roots d va src) :
    Exclusive mem roots d va src := by
  obtain ⟨pt,mem',ran,bytes,_⟩ := right
  have places := copyout_places orderly ran
  have asked : ∀ x, InRange va src.length x → askedByte mem roots d va src d x = src[x.toNat-va.toNat]? :=
      fun x range => if_pos ⟨rfl,range⟩
  have low : ∀ x, InRange va src.length x → x.toNat < 2^48 := by
    rintro x ⟨_,high⟩
    omega
  have stored : ∀ d' x, x.toNat < 2^48 → (place mem (roots d') x).map (placeByte mem') = askedByte mem roots d va src d' x := by
    intro d' x small
    rw [← bytes d' x small,storedByte,places]
  refine ⟨fun x range => ?_,fun x d' x' range small shared => ?_⟩
  · have value := stored d x (low x range)
    rw [asked x range,List.getElem?_eq_getElem (by obtain ⟨_,_⟩ := range; omega)] at value
    obtain ⟨spot,there,_⟩ := Option.map_eq_some_iff.mp value
    rw [there]
    rfl
  · rw [← stored d' x' small,shared,stored d x (low x range),asked x range]

theorem exclusive_copiesOut (orderly : Orderly mem roots) (fits : va.toNat+src.length ≤ 2^48)
    (exclusive : Exclusive mem roots d va src) :
    CopiesOut mem roots d va src := by
  cases here : roots d with
  | none =>
    have nothing : src = [] := by
      by_contra more
      have positive : 0 < src.length := List.length_pos_iff.mpr more
      have present := exclusive.mapped va ⟨Nat.le_refl _,by omega⟩
      rw [here] at present
      cases present
    subst nothing
    have outside : ∀ x, ¬ InRange va 0 x := by
      rintro x ⟨_,_⟩
      omega
    refine ⟨none,mem,by rw [here]; rfl,?_⟩
    rw [← here,Function.update_eq_self]
    refine ⟨fun d' x _ => ?_,fun _ _ _ => rfl⟩
    unfold askedByte
    rw [if_neg (fun both => outside x both.2)]
  | some root =>
    have mapped : ∀ x, InRange va src.length x → valid (mem.lookup root (vpage x)) := by
      intro x range
      obtain ⟨spot,there⟩ := Option.isSome_iff_exists.mp (exclusive.mapped x range)
      rw [here] at there
      exact (place_eq_some.mp there).1
    obtain ⟨mem',ran,written⟩ := copyoutLoop_writes src.length (Nat.le_refl _) fits orderly here mapped
    have started : copyout va src (roots d) mem = .ok (some root,mem') := by
      rw [here]
      exact ran
    have places := copyout_places orderly started
    have same : Function.update roots d (some root) = roots := by rw [← here,Function.update_eq_self]
    rw [same] at places
    have offset : ∀ x : U64, pageOffset x < pageSize := fun x => Nat.mod_lt _ (by decide)
    refine ⟨some root,mem',started,?_⟩
    rw [same]
    refine ⟨fun d' x small => ?_,fun q away _ => ?_⟩
    · rw [storedByte,places]
      cases there : place mem (roots d') x with
      | none =>
        unfold askedByte
        rw [if_neg]
        · rw [storedByte,there]
          rfl
        · rintro ⟨rfl,range⟩
          have present := exclusive.mapped x range
          rw [there] at present
          cases present
      | some spot =>
        have within : spot.2 < pageSize := by
          obtain ⟨root',_,mapped'⟩ := Option.bind_eq_some_iff.mp there
          obtain ⟨_,_,rfl⟩ := Option.map_eq_some_iff.mp mapped'
          exact offset x
        rw [Option.map_some]
        rcases written spot within with ⟨y,range,there',byte⟩ | ⟨free,kept⟩
        · rw [exclusive.alone y d' x range small (by rw [there,here,there']),byte]
        · rw [kept]
          unfold askedByte
          rw [if_neg]
          · rw [storedByte,there]
            rfl
          · rintro ⟨rfl,range⟩
            rw [here] at there
            exact free x range there
    · refine byteAt_ext fun o small => ?_
      have within : o < pageSize := by
        have unit : pageSize = 4096 := rfl
        omega
      rcases written (q,o) within with ⟨y,range,there,_⟩ | ⟨_,kept⟩
      · refine absurd ?_ (away y range)
        rw [places,here,there]
        rfl
      · exact kept

-- When copyout does what its comment says.
theorem copyout_right (orderly : Orderly mem roots) (fits : va.toNat+src.length ≤ 2^48) :
    CopiesOut mem roots d va src ↔ Exclusive mem roots d va src :=
  ⟨copiesOut_exclusive orderly fits,exclusive_copiesOut orderly fits⟩

theorem Orderly.maps {flags : U64} (orderly : Orderly mem roots) (here : roots d = some root)
    (masked : flags &&& flagMask = flags) (set : valid flags) (used : q ∉ mem.free)
    (data : ∀ d way, ¬ IsTable mem roots d way q) (ran : vmmap va q flags (some root) mem = .ok (pt,mem')) :
    Orderly mem' roots ∧ ∀ v, mem'.lookup root v = if v = vpage va then entryFor q flags else mem.lookup root v := by
  obtain ⟨_,mapped,_⟩ := vmmap_mapped orderly.toFresh here masked used data ran
  obtain ⟨front,queue⟩ := mapped.taken
  refine ⟨⟨mapped.fresh,fun d' root' v found invalid => ?_,fun there => orderly.null_used ?_,fun d' way there => ?_⟩,fun v => ?_⟩
  · by_cases mine : d' = d → v ≠ vpage va
    · rw [mapped.lookups d' root' v found mine] at invalid ⊢
      exact orderly.plain d' root' v found invalid
    · obtain ⟨rfl,rfl⟩ : d' = d ∧ v = vpage va := by
        by_contra other
        exact mine fun one two => other ⟨one,two⟩
      rw [mapped.here root' found] at invalid
      exact absurd ((valid_entryFor masked).mpr set) invalid
  · rw [queue]
    exact List.mem_append_right _ there
  · rcases mapped.added d' way _ there with old | ⟨_,new⟩
    · exact orderly.null_data d' way old
    · exact orderly.null_used new
  · by_cases same : v = vpage va
    · rw [if_pos same,same,mapped.here root here]
    · rw [if_neg same,mapped.lookups d root v here fun _ => same]

end Results

theorem idle_orderly (D : Type*) : Orderly idle fun _ : D => none :=
  ⟨idle_fresh D,fun _ _ _ found => (by cases found),by decide +kernel,fun _ _ ⟨_,found,_⟩ => (by cases found)⟩

-- A new directory with one page.
theorem copyout_right_page :
    ∃ (mem : Mem) (root : Frame), CopiesOut mem (Function.update (fun _ : Unit => none) () (some root))
    () 0x400010#64 [7#8,8#8] := by
  obtain ⟨⟨⟨root,mem₁⟩,⟨q,mem₂⟩,pt,mem⟩,ran,_⟩ := Runs.ok_such (x := do
      let first ← idle.kzallocPage
      let second ← first.2.kallocPage
      let last ← vmmap 0x400000#64 second.1 pteUserData (some first.1) second.2
      Except.ok (first,second,last)) (p := fun _ => true) (by decide +kernel)
  obtain ⟨⟨root',mem₁'⟩,took,ran⟩ := Runs.bind_ok.mp ran
  obtain ⟨⟨q',mem₂'⟩,took',ran⟩ := Runs.bind_ok.mp ran
  obtain ⟨⟨pt',mem'⟩,mapped,ran⟩ := Runs.bind_ok.mp ran
  cases ran
  obtain ⟨orderly₁,zero,_⟩ := (idle_orderly Unit).rooted took ()
  obtain ⟨roots,is⟩ : ∃ roots, roots = Function.update (fun _ : Unit => none) () (some root) := ⟨_,rfl⟩
  rw [← is] at orderly₁
  have here : roots () = some root := by rw [is,Function.update_self]
  obtain ⟨queue,pages,_,_⟩ := kallocPage_cases took'
  obtain ⟨fresh₂,used,data,_⟩ := orderly₁.toFresh.takes took'
  have orderly₂ : Orderly mem₂ roots := by
    refine ⟨fresh₂,fun d root v found => ?_,fun there => orderly₁.null_used ?_,fun d way there =>
        orderly₁.null_data d way ((isTable_of_pages pages).mp there)⟩
    · rw [lookup_of_pages pages]
      exact orderly₁.plain d root v found
    · rw [queue]
      exact List.mem_cons_of_mem _ there
  obtain ⟨orderly,lookups⟩ := orderly₂.maps here (by decide) (by decide) used data mapped
  have only : ∀ x spot, place mem (roots ()) x = some spot → vpage x = vpage 0x400000#64 ∧ pageOffset x = spot.2 := by
    intro x spot there
    rw [here] at there
    obtain ⟨set,_,offset⟩ := place_eq_some.mp there
    rw [lookups,lookup_of_pages pages,zero_lookup zero] at set
    by_cases same : vpage x = vpage 0x400000#64
    · exact ⟨same,offset⟩
    · rw [if_neg same] at set
      exact absurd set (by decide)
  have numbers : ∀ x : U64, InRange 0x400010#64 [7#8,8#8].length x → vpage x = vpage 0x400000#64 := by
    rintro x ⟨low,high⟩
    simp only [BitVec.toNat_ofNat,List.length_cons,List.length_nil] at low high
    refine vpage_within (by omega) (by decide) ?_
    simp only [BitVec.toNat_ofNat,show pageSize = 4096 from rfl]
    omega
  have there : ∀ x, InRange 0x400010#64 [7#8,8#8].length x → place mem (roots ()) x = some (q,pageOffset x) := by
    intro x range
    rw [here]
    refine place_eq_some.mpr ?_
    have entry : mem.lookup root (vpage x) = entryFor q pteUserData := by rw [lookups,if_pos (numbers x range)]
    rw [entry]
    exact ⟨(valid_entryFor (by decide)).mpr (by decide),frameOf_entryFor (by decide),rfl⟩
  refine ⟨mem,root,?_⟩
  rw [← is]
  refine (copyout_right orderly (by decide)).mpr ⟨fun x range => ?_,fun x d' x' range small shared => ?_⟩
  · rw [there x range]
    rfl
  · rw [there x range] at shared
    obtain ⟨page,offset⟩ := only x' _ shared
    rw [← numbers x range] at page
    have low : x.toNat < 2^48 := by
      obtain ⟨_,high⟩ := range
      simp only [BitVec.toNat_ofNat,List.length_cons,List.length_nil] at high
      omega
    have same : x' = x := by
      have base := congrArg BitVec.toNat ((same_page small low).mp page)
      rw [pageBase_toNat,pageBase_toNat,show pageSize = 4096 from rfl] at base
      simp only [pageOffset,show pageSize = 4096 from rfl] at offset
      apply BitVec.eq_of_toNat_eq
      omega
    rw [same]
    exact if_pos ⟨rfl,range⟩

-- Nothing is mapped yet: the byte goes to page 0, and there is still no page at the address.
theorem copyout_unmapped :
    ∃ (mem : Mem) (root : Frame), Orderly mem (Function.update (fun _ : Unit => none) () (some root)) ∧
    (∃ pt mem', copyout 0x400000#64 [7#8] (some root) mem = .ok (pt,mem') ∧ storedByte mem' pt 0x400000#64 = none ∧
      placeByte mem (0#36,0) = 0#8 ∧ placeByte mem' (0#36,0) = 7#8) ∧
    ¬ CopiesOut mem (Function.update (fun _ : Unit => none) () (some root)) () 0x400000#64 [7#8] := by
  obtain ⟨⟨⟨root,mem⟩,pt,mem'⟩,ran,facts⟩ := Runs.ok_such (x := do
      let first ← idle.kzallocPage
      let last ← copyout 0x400000#64 [7#8] (some first.1) first.2
      Except.ok (first,last))
    (p := fun r => decide (storedByte r.2.2 r.2.1 0x400000#64 = none ∧ placeByte r.1.2 (0#36,0) = 0#8 ∧
        placeByte r.2.2 (0#36,0) = 7#8))
    (by decide +kernel)
  obtain ⟨⟨_,_⟩,took,ran⟩ := Runs.bind_ok.mp ran
  obtain ⟨⟨_,_⟩,copied,ran⟩ := Runs.bind_ok.mp ran
  cases ran
  have facts := of_decide_eq_true facts
  obtain ⟨orderly,zero,_⟩ := (idle_orderly Unit).rooted took ()
  refine ⟨mem,root,orderly,⟨pt,mem',copied,facts⟩,?_⟩
  rintro ⟨pt',mem'',ran,bytes,_⟩
  have stored := bytes () 0x400000#64 (by decide)
  rw [Function.update_self] at ran
  cases copied.symm.trans ran
  rw [Function.update_self,facts.1] at stored
  have asked : none = some 7#8 := stored.trans (if_pos ⟨rfl,by decide⟩)
  cases asked

end PageTable
