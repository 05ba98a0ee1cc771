/-
# Link counts of the memory file system

`rf_linkcount` is changed where a directory is edited and where a vnode is read in or deleted, in
different functions.  `Books` keeps the account: the count of an inode is the number of entries that
name it, one for its vnode, one for the root, and a debt, which is what a computation under way
still has to enter or to take off.

Without a condition on the operations the debt can only grow: an entry made in a directory that no
entry names any more disappears with it, and nobody takes its link off.  The account that is
`strict` excludes this, and the debt stays what it was.
-/
import Weenix.Fs.VfsRuns
import Weenix.Lib.Slots

namespace Weenix.Vfs

open Slots List Option

variable {e' : Dirent} {n : Int} {i ino : Nat} {debt' : Nat → Int}

variable {s t : Ramfs} {x y d : Nat} {name : Name} {es : List Dirent} {e : Dirent}

/-! ## 1. Entries -/

/-- An entry, other than '.' and '..', that names the inode. -/
def Dirent.names (x : Nat) (e : Dirent) : Bool := e.named && e.rdIno == x

/-- The number of entries that name an inode. -/
def links (s : Ramfs) (x : Nat) : Nat := tally ramfsMaxFiles s.dirOf (Dirent.names x)

theorem names_iff : e.names x = true ↔ e.named = true ∧ e.rdIno = x := by
  simp [Dirent.names]

theorem named_iff : e.named = true ↔ e.rdName ≠ [] ∧ e.rdName ≠ ['.'] ∧ e.rdName ≠ ['.', '.'] := by
  simp [Dirent.named]

theorem toNat_names (e : Dirent) (x : Nat) :
    ((e.names x).toNat : Int) = if e.named then one e.rdIno x else 0 := by
  unfold Dirent.names one
  cases e.named with
  | false => rfl
  | true =>
    obtain rfl | hne := eq_or_ne x e.rdIno
    · simp
    · simp [hne, hne.symm]

theorem toNat_names_eq_zero (h : e.named = true → e.rdIno ≠ x) : (e.names x).toNat = 0 := by
  cases hb : e.names x with
  | false => rfl
  | true =>
    obtain ⟨hn, hx⟩ := names_iff.mp hb
    exact absurd hx (h hn)

/-- A final component that is stored without being cut matches what is stored. -/
theorem nameMatch_stored (hf : name.Final) (hne : name.stored ≠ [])
    (hlt : name.stored.length < nameLen - 1) :
    nameMatch name.stored name = true := by
  have hstr : name.str ≠ [] := by
    rintro hnil
    exact hne (by rw [Name.stored, hnil, take_nil])
  have hlen : name.len = name.str.length := by
    rw [Name.Final, if_neg hstr] at hf
    exact hf
  have hfull : name.stored = name.str := by
    rw [Name.stored, hlen] at hlt ⊢
    rw [length_take] at hlt
    exact take_of_length_le (by omega)
  rw [nameMatch, hfull, hlen, take_length]
  simp

/-- The name of a new entry is none of the two that every directory has. -/
theorem named_of_absent (hf : name.Final) (hdot : nameMatch ['.'] name = false)
    (hdots : nameMatch ['.', '.'] name = false) :
    (Dirent.mk ino name.stored).named = decide (name.stored ≠ []) := by
  by_cases hne : name.stored = []
  · simp [Dirent.named, hne]
  · have hcut : ∀ fname : List Char, fname.length < nameLen - 1 → nameMatch fname name = false →
        name.stored ≠ fname := by
      rintro fname hlen hmatch rfl
      rw [nameMatch_stored hf hne hlen] at hmatch
      cases hmatch
    rw [decide_eq_true hne, named_iff]
    exact ⟨hne, hcut _ (by decide) hdot, hcut _ (by decide) hdots⟩

theorem rdName_of_nameMatch (hf : name.Final) (h : nameMatch e.rdName name = true) :
    e.rdName = name.str ∧ e.rdName ≠ [] := by
  simp only [nameMatch, decide_eq_true_eq] at h
  obtain ⟨hlen, htake⟩ := h
  by_cases hstr : name.str = []
  · rw [Name.Final, if_pos hstr] at hf
    rw [hstr, take_nil] at htake
    rw [← htake, hf] at hlen
    cases hlen
  · rw [Name.Final, if_neg hstr] at hf
    rw [hf, take_length] at htake
    exact ⟨htake.symm, htake ▸ hstr⟩

theorem clearSlot_eq (h : es.find? (fun e => nameMatch e.rdName name) = some e) :
    ∃ i, es[i]? = some e ∧ clearSlot name es = es.set i { e with rdName := [] } := by
  obtain ⟨hp, i, hi, rfl, hbefore⟩ := find?_eq_some_iff_getElem.mp h
  have hidx : es.findIdx? (fun e => nameMatch e.rdName name) = some i :=
    findIdx?_eq_some_iff_getElem.mpr ⟨hi, hp, fun j hj => by simpa using hbefore j hj⟩
  refine ⟨i, getElem?_eq_getElem hi, ?_⟩
  rw [clearSlot, hidx]
  exact modify_eq_set_get _ hi

/-! ## 2. The account -/

/-- One for the vnode in memory. -/
def core (s : Ramfs) (x : Nat) : Int := if s.inCore x then 1 else 0

/-- An entry may still be reached: its directory is the root or named by an entry. -/
def Linked (s : Ramfs) (d : Nat) : Prop := d = rootIno ∨ 0 < links s d
deriving Decidable

structure Books (strict : Prop) (s : Ramfs) (debt : Nat → Int) : Prop where
  count : ∀ x n, s.linkcount x = some n → n = links s x + core s x + one rootIno x + debt x
  named : ∀ x, s.linkcount x = none → links s x = 0
  inCore : ∀ x, s.inCore x = true → s.linkcount x ≠ none
  pos : ∀ x n, s.linkcount x = some n → 0 < n
  lt : ∀ x, s.linkcount x ≠ none → x < ramfsMaxFiles
  root : s.dirOf rootIno ≠ none
  dots : ∀ d es, s.dirOf d = some es → ∃ up rest, es = ⟨d, ['.']⟩ :: ⟨up, ['.', '.']⟩ :: rest
  nonneg : ∀ x, 0 ≤ debt x
  settled : ∀ x, s.linkcount x = none → debt x = 0
  orphans : strict → ∀ d es, s.dirOf d = some es → ¬ Linked s d → ∀ e ∈ es, e.named = false
  sized : strict → Sized s

/-- The account is kept, and a strict one owes what it owed. -/
abbrev BooksAfter (strict : Prop) (debt : Nat → Int) (t : Ramfs) : Prop :=
  ∃ debt', Books strict t debt' ∧ (strict → debt' = debt)

variable {strict : Prop} {debt : Nat → Int}

theorem links_congr (h : t.dirOf = s.dirOf) (x : Nat) : links t x = links s x := by
  rw [links, links, h]

theorem links_set (hd : d < ramfsMaxFiles) (hes : s.dirOf d = some es)
    (he : es[i]? = some e) (h : t.dirOf = update s.dirOf d (some (es.set i e'))) (x : Nat) :
    links t x + (e.names x).toNat = links s x + (e'.names x).toNat := by
  unfold links
  rw [h]
  exact tally_set hd hes he

theorem links_update {table : Option (List Dirent)} (hd : d < ramfsMaxFiles)
    (h : t.dirOf = update s.dirOf d table) (x : Nat) :
    links t x + Slots.count (s.dirOf d)
    (Dirent.names x) = links s x + Slots.count table (Dirent.names x) := by
  unfold links
  rw [h]
  exact tally_update hd table

theorem linked_congr (h : t.dirOf = s.dirOf) (x : Nat) : Linked t x ↔ Linked s x := by
  rw [Linked, Linked, links_congr h]

theorem core_update {b : Bool} (h : t.inCore = update s.inCore x b) (y : Nat) :
    core t y = if y = x then (if b then 1 else 0) else core s y := by
  unfold core
  rw [h]
  obtain rfl | hy := eq_or_ne y x
  · rw [update_self, if_pos rfl]
  · rw [update_of_ne hy, if_neg hy]

theorem one_self (x : Nat) : one x x = 1 := if_pos rfl

theorem one_of_ne (h : y ≠ x) : one x y = 0 := if_neg h

theorem one_nonneg (x y : Nat) : 0 ≤ one x y := by
  unfold one
  split <;> decide

/-- What an entry for the name accounts for; a name that is stored as the empty one is no entry. -/
def paid (name : Name) (ino : Nat) : Nat → Int := if name.stored = [] then 0 else one ino

namespace Books

section
variable (h : Books strict s debt)
include h

theorem dir_present (hd : s.dirOf d = some es) : d < ramfsMaxFiles := by
  refine h.lt d fun hn => ?_
  rw [dirOf_of_linkcount_none hn] at hd
  cases hd

theorem named_present (hd : s.dirOf d = some es) (he : e ∈ es) (hn : e.named = true) :
    s.linkcount e.rdIno ≠ none := by
  intro hnone
  have hpos : 0 < links s e.rdIno :=
    tally_pos (h.dir_present hd) hd he (names_iff.mpr ⟨hn, rfl⟩)
  have := h.named _ hnone
  omega

/-- The directories are the same, and one inode has another count. -/
theorem recount {n' : Int} (hd : t.dirOf = s.dirOf)
    (hn : s.linkcount x = some n) (hn' : t.linkcount = update s.linkcount x (some n'))
    (hcore : ∀ y ≠ x, t.inCore y = s.inCore y) (hdebt : ∀ y ≠ x, debt' y = debt y)
    (hbal : n' + core s x + debt x = n + core t x + debt' x) (hpos : 0 < n') (hnonneg : 0 ≤ debt' x)
    (hsized : Sized s → Sized t) : Books strict t debt' := by
  have hother : ∀ y ≠ x, t.linkcount y = s.linkcount y := fun y hy => by
    rw [hn', update_of_ne hy]
  have hself : t.linkcount x = some n' := by rw [hn', update_self]
  have hne : ∀ y, t.linkcount y = none → y ≠ x := by
    rintro y hy rfl
    rw [hself] at hy
    cases hy
  exact
    { count y m hm := by
        rw [links_congr hd]
        obtain rfl | hy := eq_or_ne y x
        · obtain rfl : n' = m := some.inj (hself.symm.trans hm)
          have := h.count y n hn
          omega
        · have := h.count y m (hother y hy ▸ hm)
          rw [hdebt y hy, core, hcore y hy]
          exact this
      named y hy := by
        rw [links_congr hd]
        exact h.named y (hother y (hne y hy) ▸ hy)
      inCore y hy hnone := by
        have hyx := hne y hnone
        exact h.inCore y (hcore y hyx ▸ hy) (hother y hyx ▸ hnone)
      pos y m hm := by
        obtain rfl | hy := eq_or_ne y x
        · obtain rfl : n' = m := some.inj (hself.symm.trans hm)
          exact hpos
        · exact h.pos y m (hother y hy ▸ hm)
      lt y hy := by
        obtain rfl | hyx := eq_or_ne y x
        · exact h.lt y (by rw [hn]; exact nofun)
        · exact h.lt y (hother y hyx ▸ hy)
      root := hd ▸ h.root
      dots d es hes := h.dots d es (hd ▸ hes)
      nonneg y := by
        obtain rfl | hy := eq_or_ne y x
        · exact hnonneg
        · rw [hdebt y hy]
          exact h.nonneg y
      settled y hy := by
        rw [hdebt y (hne y hy)]
        exact h.settled y (hother y (hne y hy) ▸ hy)
      orphans hs d es hes hl := h.orphans hs d es (hd ▸ hes) (mt (linked_congr hd d).mpr hl)
      sized hs := hsized (h.sized hs) }

/-- Nothing changes that the account is about. -/
theorem unchanged (hd : t.dirOf = s.dirOf) (hl : t.linkcount = s.linkcount)
    (hc : t.inCore = s.inCore) (hsized : Sized s → Sized t) : Books strict t debt := by
  have hroot : s.linkcount rootIno ≠ none := fun hn => h.root (dirOf_of_linkcount_none hn)
  obtain ⟨n, hn⟩ := ne_none_iff_exists'.mp hroot
  refine h.recount hd hn (hl.trans (update_eq_self_iff.mpr hn.symm).symm)
    (fun y _ => congrFun hc y) (fun _ _ => rfl) ?_ (h.pos _ n hn) (h.nonneg _) hsized
  rw [core, core, hc]

theorem recounted (hr : Recounted s t) : Books strict t debt :=
  have ⟨hd, hl, hc, _⟩ := hr.views
  h.unchanged hd hl hc hr.sized

theorem loaded (hl : Loaded s x t) : Books strict t debt := by
  obtain ⟨n, hn, hn'⟩ := hl.count
  have hpos := h.pos x n hn
  refine h.recount hl.dirOf hn hn' (fun y hy => by rw [hl.inCore, update_of_ne hy])
    (fun _ _ => rfl) ?_ (by omega) (h.nonneg x) hl.sized
  rw [core_update hl.inCore, core, hl.out, if_pos rfl, if_pos rfl, if_neg Bool.false_ne_true]
  omega

end

section
variable (h : Books strict s debt)
include h

theorem addLink {m : Int} (hn : s.linkcount x = some n) (hpos : 0 < n + m)
    (hdebt : 0 ≤ debt x + m) :
    Books strict (s.addLink x m) (debt + fun y => m * one x y) := by
  obtain ⟨hd, hl, hc, -, hsized⟩ := addLink_views (m := m) hn
  refine h.recount hd hn hl (fun y _ => congrFun hc y) (fun y hy => ?_) ?_ hpos ?_ hsized
  · rw [Pi.add_apply, one_of_ne hy]
    omega
  · rw [Pi.add_apply, one_self, core, core, hc]
    omega
  · rw [Pi.add_apply, one_self]
    omega

/-- An inode that leaves the table takes its entries with it; what they named is still counted. -/
theorem removed (hc : s.inCore x = true) (hn : s.linkcount x = some 1)
    (hcount : t.linkcount = update s.linkcount x none) (hdir : t.dirOf = update s.dirOf x none)
    (hcore : t.inCore = update s.inCore x false) (hsized : Sized s → Sized t) :
    BooksAfter strict debt t := by
  have hlt : x < ramfsMaxFiles := h.lt x (by rw [hn]; exact nofun)
  have hlinks : ∀ y, links t y + Slots.count (s.dirOf x) (Dirent.names y) = links s y := fun y => by
    rw [links_update hlt hdir y, count_none, Nat.add_zero]
  -- the vnode accounts for the whole count
  have hone := h.count x 1 hn
  have hcx : core s x = 1 := by rw [core, hc, if_pos rfl]
  have hd0 := h.nonneg x
  have hr0 := one_nonneg rootIno x
  have hroot : x ≠ rootIno := by
    rintro rfl
    rw [one_self] at hone
    omega
  have hunlinked : ¬ Linked s x := by
    rintro (hx | hx)
    · exact hroot hx
    · omega
  -- a strict account has nothing in such a directory
  have hempty : strict → ∀ y, links t y = links s y := by
    intro hs y
    have hzero : Slots.count (s.dirOf x) (Dirent.names y) = 0 := by
      cases hes : s.dirOf x with
      | none => rfl
      | some es =>
        rw [count_some, countP_eq_zero]
        intro e he hne
        have := h.orphans hs x es hes hunlinked e he
        rw [(names_iff.mp hne).1] at this
        cases this
    have := hlinks y
    omega
  have hother : ∀ y ≠ x, t.linkcount y = s.linkcount y := fun y hy => by
    rw [hcount, update_of_ne hy]
  have hself : t.linkcount x = none := by rw [hcount, update_self]
  have hne : ∀ {y n}, t.linkcount y = some n → y ≠ x := by
    rintro y n hy rfl
    rw [hself] at hy
    cases hy
  have hdir_ne : ∀ {d es}, t.dirOf d = some es → s.dirOf d = some es := by
    intro d es hes
    obtain ⟨-, hes⟩ | ⟨-, hes⟩ := of_update (hdir ▸ hes)
    · cases hes
    · exact hes
  refine ⟨fun y => debt y + (links s y - links t y), ?_, fun hs => ?_⟩
  rotate_left
  · funext y
    rw [hempty hs y]
    omega
  exact
    { count y n hy := by
        have := h.count y n (hother y (hne hy) ▸ hy)
        rw [core_update hcore, if_neg (hne hy)]
        omega
      named y hy := by
        have := hlinks y
        obtain rfl | hyx := eq_or_ne y x
        · omega
        · have := h.named y (hother y hyx ▸ hy)
          omega
      inCore y hy := by
        have hyx : y ≠ x := by
          rintro rfl
          rw [hcore, update_self] at hy
          cases hy
        rw [hother y hyx]
        rw [hcore, update_of_ne hyx] at hy
        exact h.inCore y hy
      pos y n hy := h.pos y n (hother y (hne hy) ▸ hy)
      lt y hy := by
        obtain ⟨n, hn'⟩ := ne_none_iff_exists'.mp hy
        exact h.lt y (hother y (hne hn') ▸ hy)
      root := by
        rw [hdir, update_of_ne hroot.symm]
        exact h.root
      dots d es hes := h.dots d es (hdir_ne hes)
      nonneg y := by
        have := hlinks y
        have := h.nonneg y
        omega
      settled y hy := by
        have := hlinks y
        obtain rfl | hyx := eq_or_ne y x
        · omega
        · have := h.named y (hother y hyx ▸ hy)
          have := h.settled y (hother y hyx ▸ hy)
          omega
      orphans hs d es hes hl := by
        refine h.orphans hs d es (hdir_ne hes) ?_
        rwa [Linked, hempty hs d] at hl
      sized hs := hsized (h.sized hs) }

theorem unloaded (hu : Unloaded s x t) : BooksAfter strict debt t := by
  obtain ⟨n, hn, hn', hd⟩ := hu.count
  by_cases hone : n = 1
  · subst hone
    rw [if_pos rfl] at hn' hd
    exact h.removed hu.core hn hn' hd hu.inCore hu.sized
  · rw [if_neg hone] at hn' hd
    refine ⟨debt, ?_, fun _ => rfl⟩
    have hpos := h.pos x n hn
    refine h.recount hd hn hn' (fun y hy => by rw [hu.inCore, update_of_ne hy])
      (fun _ _ => rfl) ?_ (by omega) (h.nonneg x) hu.sized
    rw [core_update hu.inCore, core, hu.core, if_pos rfl, if_pos rfl, if_neg Bool.false_ne_true]
    omega

/-- A new inode, before an entry names it. -/
theorem install {inode : Inode} (hlt : ino < ramfsMaxFiles) (hnew : s.linkcount ino = none)
    (hone : inode.rfLinkcount = 1) (hsize : inode.Sized)
    (hdots : ∀ es, inode.rfMem.entries = some es →
      (∃ up rest, es = ⟨ino, ['.']⟩ :: ⟨up, ['.', '.']⟩ :: rest) ∧ ∀ e ∈ es, e.named = false)
    : Books strict (install s ino inode) (debt + one ino) := by
  obtain ⟨hdir, hcount, hcore, hsized⟩ := install_views s ino inode
  generalize Vfs.install s ino inode = t at hdir hcount hcore hsized
  have hnodir := dirOf_of_linkcount_none hnew
  have hlinks : ∀ y, links t y = links s y := fun y => by
    have hsum := links_update hlt hdir y
    have hzero : Slots.count inode.rfMem.entries (Dirent.names y) = 0 := by
      cases hes : inode.rfMem.entries with
      | none => rfl
      | some es =>
        rw [count_some, countP_eq_zero]
        intro e he hne
        rw [names_iff, (hdots es hes).2 e he] at hne
        cases hne.1
    rw [hnodir, count_none, hzero] at hsum
    omega
  have hother : ∀ y ≠ ino, t.linkcount y = s.linkcount y := fun y hy => by
    rw [hcount, update_of_ne hy]
  have hself : t.linkcount ino = some 1 := by rw [hcount, update_self, hone]
  have hne : ∀ {y}, t.linkcount y = none → y ≠ ino := by
    rintro y hy rfl
    rw [hself] at hy
    cases hy
  have hout : s.inCore ino = false := by
    by_contra hc
    exact h.inCore ino (by simpa using hc) hnew
  have hroot : ino ≠ rootIno := by
    rintro rfl
    exact h.root hnodir
  have hdir_cases : ∀ {d es}, t.dirOf d = some es → d = ino ∧ inode.rfMem.entries = some es ∨
      d ≠ ino ∧ s.dirOf d = some es := fun hes => of_update (hdir ▸ hes)
  exact
    { count y n hy := by
        have hcore' : core t y = core s y := by rw [core, core, hcore]
        rw [hlinks, hcore', Pi.add_apply]
        obtain rfl | hyx := eq_or_ne y ino
        · obtain rfl : 1 = n := some.inj (hself.symm.trans hy)
          rw [h.named y hnew, core, hout, if_neg Bool.false_ne_true, one_of_ne hroot,
            h.settled y hnew, one_self]
          rfl
        · have := h.count y n (hother y hyx ▸ hy)
          rw [one_of_ne hyx]
          omega
      named y hy := by
        rw [hlinks]
        exact h.named y (hother y (hne hy) ▸ hy)
      inCore y hy hnone := h.inCore y (hcore ▸ hy) (hother y (hne hnone) ▸ hnone)
      pos y n hy := by
        obtain rfl | hyx := eq_or_ne y ino
        · obtain rfl : 1 = n := some.inj (hself.symm.trans hy)
          decide
        · exact h.pos y n (hother y hyx ▸ hy)
      lt y hy := by
        obtain rfl | hyx := eq_or_ne y ino
        · exact hlt
        · exact h.lt y (hother y hyx ▸ hy)
      root := by
        rw [hdir, update_of_ne hroot.symm]
        exact h.root
      dots d es hes := by
        obtain ⟨rfl, hes⟩ | ⟨-, hes⟩ := hdir_cases hes
        · exact (hdots es hes).1
        · exact h.dots d es hes
      nonneg y := Int.add_nonneg (h.nonneg y) (one_nonneg ino y)
      settled y hy := by
        have hy' := h.settled y (hother y (hne hy) ▸ hy)
        rw [Pi.add_apply, hy', one_of_ne (hne hy)]
        rfl
      orphans hs d es hes hl := by
        obtain ⟨rfl, hes⟩ | ⟨-, hes⟩ := hdir_cases hes
        · exact (hdots es hes).2
        · exact h.orphans hs d es hes (by rwa [Linked, hlinks] at hl)
      sized hs := hsized (h.sized hs) hsize }

section
variable (hes : s.dirOf d = some es) (he : es[i]? = some e) (hdot : e.rdName ≠ ['.'])
  (hdots : e.rdName ≠ ['.', '.'])
include hes he hdot hdots

/-- The two first slots stay. -/
theorem dots_set : ∃ up rest, es.set i e' = ⟨d, ['.']⟩ :: ⟨up, ['.', '.']⟩ :: rest := by
  obtain ⟨up, rest, rfl⟩ := h.dots d es hes
  match i with
  | 0 =>
    cases he
    exact absurd rfl hdot
  | 1 =>
    cases he
    exact absurd rfl hdots
  | i + 2 => exact ⟨up, rest.set i e', rfl⟩

/-- A slot is rewritten: all but what the names account for. -/
theorem set_entry (hpresent : e'.named = true → s.linkcount e'.rdIno ≠ none)
    (hdir : t.dirOf = update s.dirOf d (some (es.set i e'))) (hcount : t.linkcount = s.linkcount)
    (hcore : t.inCore = s.inCore)
    (hdebt : ∀ x, debt' x = debt x + (e.names x).toNat - (e'.names x).toNat)
    (hnonneg : ∀ x, 0 ≤ debt' x)
    (horphans : strict → ∀ d es, t.dirOf d = some es → ¬ Linked t d → ∀ e ∈ es, e.named = false)
    (hsized : strict → Sized t) : Books strict t debt' := by
  have hlinks := links_set (h.dir_present hes) hes he hdir
  -- neither entry names an inode that is not there
  have hold : ∀ x, s.linkcount x = none → (e.names x).toNat = 0 := fun x hx =>
    toNat_names_eq_zero fun hn hx' => h.named_present hes (mem_of_getElem? he) hn (hx' ▸ hx)
  have hnew : ∀ x, s.linkcount x = none → (e'.names x).toNat = 0 := fun x hx =>
    toNat_names_eq_zero fun hn hx' => hpresent hn (hx' ▸ hx)
  exact
    { count x n hn := by
        have := h.count x n (hcount ▸ hn)
        have := hlinks x
        have : core t x = core s x := by rw [core, core, hcore]
        have := hdebt x
        omega
      named x hx := by
        rw [hcount] at hx
        have := h.named x hx
        have := hlinks x
        have := hnew x hx
        omega
      inCore x hx := hcount ▸ h.inCore x (hcore ▸ hx)
      pos x n hn := h.pos x n (hcount ▸ hn)
      lt x hx := h.lt x (hcount ▸ hx)
      root := by
        rw [hdir]
        obtain hd | hd := eq_or_ne rootIno d
        · rw [hd, update_self]
          exact nofun
        · rw [update_of_ne hd]
          exact h.root
      dots d' es' hes' := by
        obtain ⟨rfl, hes'⟩ | ⟨-, hes'⟩ := of_update (hdir ▸ hes')
        · cases hes'
          exact h.dots_set hes he hdot hdots
        · exact h.dots d' es' hes'
      nonneg := hnonneg
      settled x hx := by
        rw [hcount] at hx
        rw [hdebt x, hold x hx, hnew x hx, h.settled x hx]
        rfl
      orphans := horphans
      sized := hsized }

end

/-- An entry is made for an inode that is counted for it already. -/
theorem enter (hf : name.Final) (hes : s.dirOf d = some es)
    (habsent : ∀ e ∈ es, nameMatch e.rdName name = false)
    (hfree : ∃ e, es[i]? = some e ∧ e.rdName = [])
    (hpresent : s.linkcount ino ≠ none) (hdebt : 0 < debt ino)
    (hstrict : strict → Linked s d ∧ name.stored ≠ []) :
    Books strict (setEntry s d i ino name) (debt - paid name ino) := by
  obtain ⟨hdir, hcount, hcore, -⟩ : _ ∧ _ ∧ _ ∧ (setEntry s d i ino name).entered = _ :=
    setEntry_views hes
  obtain ⟨up, rest, hrest⟩ := h.dots d es hes
  have hnamed : (Dirent.mk ino name.stored).named = decide (name.stored ≠ []) :=
    named_of_absent hf (habsent ⟨d, ['.']⟩ (by simp [hrest]))
      (habsent ⟨up, ['.', '.']⟩ (by simp [hrest]))
  obtain ⟨e, he, hfree⟩ := hfree
  have hold : ∀ x, (e.names x).toNat = 0 := fun x =>
    toNat_names_eq_zero fun hn => absurd hfree (named_iff.mp hn).1
  have hnew : ∀ x, (((Dirent.mk ino name.stored).names x).toNat : Int) = paid name ino x :=
    fun x => by
    rw [toNat_names, hnamed, paid]
    by_cases hnil : name.stored = []
    · simp [hnil]
    · simp [hnil]
  have hlinks := links_set (h.dir_present hes) hes he hdir
  refine h.set_entry hes he (by simp [hfree]) (by simp [hfree]) (fun _ => hpresent)
    hdir hcount hcore (fun x => ?_) (fun x => ?_) (fun hs d' es' hes' hl => ?_) fun hs => ?_
  · rw [hold x, hnew x, Pi.sub_apply]
    omega
  · have := h.nonneg x
    rw [Pi.sub_apply, paid]
    split
    · simpa using this
    · obtain rfl | hx := eq_or_ne x ino
      · rw [one_self]
        omega
      · rw [one_of_ne hx]
        omega
  · -- the directory itself is linked, the others were and are
    have hl' : ¬ Linked s d' := by
      rintro (hd | hd)
      · exact hl (.inl hd)
      · have := hlinks d'
        have := hold d'
        exact hl (.inr (by omega))
    obtain rfl | hd := eq_or_ne d' d
    · exact absurd (hstrict hs).1 hl'
    · rw [hdir, update_of_ne hd] at hes'
      exact h.orphans hs d' es' hes' hl'
  · refine editDir_sized (h.sized hs) hes ?_
    have hlive :=
      countP_set_add (p := fun e : Dirent => decide (e.rdName ≠ [])) he (b := ⟨ino, name.stored⟩)
    simp only [hfree, (hstrict hs).2, ne_eq, not_true, decide_false, not_false_eq_true, decide_true,
      Bool.toNat_false, Bool.toNat_true] at hlive
    unfold liveSlots sizeofRamfsDirent
    simp only [ne_eq]
    omega

/-- An entry is removed; its link is not taken off yet. -/
theorem clear (hes : s.dirOf d = some es)
    (hfind : es.find? (fun e => nameMatch e.rdName name) = some e)
    (hn : e.named = true)
    (hempty : strict → ∀ es', s.dirOf e.rdIno = some es' → ∀ e' ∈ es', e'.named = false) :
    Books strict (clearEntry s d name) (debt + one e.rdIno) := by
  obtain ⟨hdir, hcount, hcore, -⟩ : _ ∧ _ ∧ _ ∧ (clearEntry s d name).entered = _ :=
    clearEntry_views hes
  obtain ⟨i, he, hclear⟩ := clearSlot_eq hfind
  rw [hclear] at hdir
  obtain ⟨hname, hdot, hdots⟩ := named_iff.mp hn
  have hold : ∀ x, ((e.names x).toNat : Int) = one e.rdIno x :=
    fun x => by rw [toNat_names, if_pos hn]
  have hnew : ∀ x, (({ e with rdName := [] } : Dirent).names x).toNat = 0 := fun x =>
    toNat_names_eq_zero fun hn => absurd rfl (named_iff.mp hn).1
  have hlinks := links_set (h.dir_present hes) hes he hdir
  refine h.set_entry hes he hdot hdots (fun hn => absurd rfl (named_iff.mp hn).1) hdir hcount hcore
    (fun x => ?_) (fun x => Int.add_nonneg (h.nonneg x) (one_nonneg _ x))
      (fun hs d' es' hes' hl => ?_) fun hs => ?_
  · rw [Pi.add_apply, hold x, hnew x]
    omega
  · -- a directory that is linked no more is the one the entry named
    have hbefore : ∀ es', s.dirOf d' = some es' → ∀ e' ∈ es', e'.named = false := by
      obtain rfl | hd := eq_or_ne d' e.rdIno
      · exact hempty hs
      · intro es' hes'
        refine h.orphans hs d' es' hes' ?_
        rintro (hroot | hpos)
        · exact hl (.inl hroot)
        · have := hlinks d'
          have := hold d'
          rw [one_of_ne hd] at *
          exact hl (.inr (by omega))
    obtain ⟨rfl, hset⟩ | ⟨-, hes'⟩ := of_update (hdir ▸ hes')
    · cases hset
      intro e' he'
      obtain he' | rfl := mem_or_eq_of_mem_set he'
      · exact hbefore es hes e' he'
      · rfl
    · exact hbefore es' hes'
  · refine editDir_sized (h.sized hs) hes ?_
    have hlive := countP_set_add (p := fun e : Dirent =>
      decide (e.rdName ≠ [])) he (b := { e with rdName := [] })
    simp only [hname, ne_eq, not_true, decide_false, not_false_eq_true, decide_true,
      Bool.toNat_false, Bool.toNat_true] at hlive
    rw [hclear]
    unfold liveSlots sizeofRamfsDirent
    simp only [ne_eq]
    omega

end

end Books

end Weenix.Vfs
