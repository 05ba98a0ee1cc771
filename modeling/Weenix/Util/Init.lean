/-
# The order of initialisation (`util/init.c`)

The linker collects a table of functions to call at boot, each with the names of the functions it
depends on.  `init_call_all` reads the table and calls every function, by a depth-first search from
each function in turn: `_init_call` numbers a function with the search that reached it, goes through
its dependencies, and calls it.

A dependency that carries the number of the current search is taken for a cycle.  It may as well be
a function that this very search has finished with.  So the search succeeds on a table without
cycles exactly if no function is named twice by the functions the same search reaches first
(`Once`), and `init_order` says that this is the whole difference to what the function is for.

* The names are distinct, so that a `struct init_function` is known by its name.
* Calling an `if_func` is an entry in `calls`.  The lists are built and freed with `kmalloc`, which
  is taken to succeed, as the assertions behind it say.
-/
import Mathlib.Data.List.Nodup
import Mathlib.Data.List.Perm.Basic
import Weenix.Kernel

namespace Weenix.Init

open List

open Relation (ReflTransGen TransGen)

variable {calls : List String} {n : Nat} {P : Prop} {a b y : String} {α : Type}

/-! ## 1. The table -/

/-- `struct init_function`, as far as the section says. -/
structure InitFunction where
  ifName : String
  ifDeps : List String
deriving DecidableEq, Repr

variable {funcs : List InitFunction}

/-- What the macros `init_func` and `init_depends` put into the section `.init`. -/
inductive InitEntry where
  | initFunc (name : String)
  | initDepends (name : String)
deriving DecidableEq, Repr

def initSection (funcs : List InitFunction) : List InitEntry :=
  funcs.flatMap fun f => .initFunc f.ifName :: f.ifDeps.map .initDepends

/-- The two nested loops of `init_call_all` that read the section; `curr` is the function whose
dependencies are being read. -/
def readSection : Option InitFunction → List InitEntry → Except Halt (List InitFunction)
  | curr, [] => .ok curr.toList
  | none, .initDepends _ :: _ => .error (.kassert "NULL != *(uintptr_t *)buf")
  | some curr, .initDepends name :: buf =>
    readSection (some { curr with ifDeps := curr.ifDeps ++ [name] }) buf
  | curr, .initFunc name :: buf => (curr.toList ++ ·) <$> readSection (some ⟨name, []⟩) buf

theorem readSection_depends (curr : InitFunction) (deps : List String) (buf : List InitEntry) :
    readSection (some curr) (deps.map .initDepends ++ buf)
      = readSection (some { curr with ifDeps := curr.ifDeps ++ deps }) buf := by
  induction deps generalizing curr with
  | nil => simp
  | cons d deps ih =>
    rw [map_cons, cons_append, readSection, ih]
    simp

/-- The table is read back from its section. -/
theorem readSection_initSection (curr : Option InitFunction) (funcs : List InitFunction) :
    readSection curr (initSection funcs) = .ok (curr.toList ++ funcs) := by
  induction funcs generalizing curr with
  | nil => cases curr <;> rfl
  | cons f funcs ih =>
    have hsec : initSection (f :: funcs) =
      .initFunc f.ifName :: (f.ifDeps.map .initDepends ++ initSection funcs) := rfl
    have hfunc : ∀ buf, readSection curr (.initFunc f.ifName :: buf)
        = (curr.toList ++ ·) <$> readSection (some ⟨f.ifName, []⟩) buf := by
      intro buf
      cases curr <;> rfl
    rw [hsec, hfunc, readSection_depends, ih]
    rfl

/-! ## 2. The search -/

/-- The fields of the structures that change, by name, and the functions called so far. -/
structure InitState where
  ifSearch : String → Nat
  ifCalled : String → Bool
  calls : List String

variable {s t : InitState}

/-- `f->if_search = n` -/
def InitState.enter (s : InitState) (name : String) (n : Nat) : InitState :=
  { s with ifSearch := update s.ifSearch name n }

/-- `func->if_func(); func->if_called = 1;` -/
def InitState.call (s : InitState) (name : String) : InitState :=
  { s with ifCalled := update s.ifCalled name true, calls := s.calls ++ [name] }

/-- The inner loop of `_init_call`. -/
def findFunc (funcs : List InitFunction) (name : String) : Option InitFunction :=
  funcs.find? (·.ifName == name)

/-- One round of the loop of `_init_call` over the dependencies of `func`; `call` is
`_init_call`. -/
def initDep (funcs : List InitFunction) (call : InitState → InitFunction → Except Halt InitState)
    (func : InitFunction) (s : InitState) (dep : String) : Except Halt InitState :=
  match findFunc funcs dep with
  | none => .error (.panic "'%s' dependency for '%s' does not exist")
  | some f =>
    if s.ifSearch func.ifName = s.ifSearch f.ifName then
      .error (.panic "circular dependency between '%s' and '%s'")
    else if s.ifCalled f.ifName then .ok s
    else call (s.enter f.ifName (s.ifSearch func.ifName)) f

def initCall (funcs : List InitFunction) : Nat → InitState → InitFunction → Except Halt InitState
  | 0, _, _ => .error .hang
  | fuel + 1, s, func => do
    let s ← func.ifDeps.foldlM (initDep funcs (fun s f => initCall funcs fuel s f) func) s
    kassert (!s.ifCalled func.ifName) "!func->if_called"
    return s.call func.ifName

/-- One round of the loop of `init_call_all` over the functions; the number is
`_init_search_count`.  A search enters no function twice. -/
def initRound (funcs : List InitFunction) (c : Nat × InitState) (func : InitFunction) :
    Except Halt (Nat × InitState) :=
  if c.2.ifCalled func.ifName then .ok c
  else do
    let s ← initCall funcs funcs.length (c.2.enter func.ifName (c.1 + 1)) func
    return (c.1 + 1, s)

/-- `init_call_all()` on the given section: the functions it called, in order. -/
def initCallAll (init : List InitEntry) : Except Halt (List String) := do
  let funcs ← readSection none init
  let c ← funcs.foldlM (initRound funcs) (0, ⟨fun _ => 0, fun _ => false, []⟩)
  return c.2.calls

/-! ## 3. What it is for -/

/-- `a` declares a dependency on `b`. -/
def Dep (funcs : List InitFunction) (a b : String) : Prop :=
  ∃ f ∈ funcs, f.ifName = a ∧ b ∈ f.ifDeps

/-- All dependencies exist and there is no cycle. -/
structure Sound (funcs : List InitFunction) : Prop where
  exist : ∀ f ∈ funcs, ∀ d ∈ f.ifDeps, ∃ g ∈ funcs, g.ifName = d
  acyclic : ∀ a, ¬ TransGen (Dep funcs) a a

/-- Everything stands behind what it depends on. -/
def Ordered (funcs : List InitFunction) (calls : List String) : Prop :=
  ∀ before x after, calls = before ++ x :: after → ∀ f ∈ funcs, f.ifName = x →
    ∀ d ∈ f.ifDeps, d ∈ before

/-- Every function is called, once, and after all functions it depends on. -/
def CallsInOrder (funcs : List InitFunction) : Prop :=
  ∃ calls, initCallAll (initSection funcs) = .ok calls ∧ calls.Perm (funcs.map (·.ifName)) ∧
    Ordered funcs calls

def Panics (funcs : List InitFunction) : Prop :=
  ∃ fmt, initCallAll (initSection funcs) = .error (.panic fmt)

/-- What `init_call_all` is for. -/
def InitSpec (funcs : List InitFunction) : Prop :=
  (Sound funcs → CallsInOrder funcs) ∧ (¬ Sound funcs → Panics funcs)

/-- One of the first `k` functions depends on `x`, directly or not, or is `x`. -/
def Found (funcs : List InitFunction) (k : Nat) (x : String) : Prop :=
  ∃ f ∈ funcs.take k, ReflTransGen (Dep funcs) f.ifName x

/-- The `k`-th function is the first one that leads to `x`. -/
def New (funcs : List InitFunction) (k : Nat) (x : String) : Prop :=
  Found funcs (k + 1) x ∧ ¬ Found funcs k x

open Classical in
/-- How often the functions in `p` declare a dependency on `x`. -/
noncomputable def declaredBy (funcs : List InitFunction) (p : String → Prop) (x : String) : Nat :=
  ((funcs.filter fun g => p g.ifName).flatMap (·.ifDeps)).count x

/-- **No function is named twice by functions that the same search reaches first.** -/
def Once (funcs : List InitFunction) : Prop :=
  ∀ k x, New funcs k x → declaredBy funcs (New funcs k) x ≤ 1

/-! ## 4. Small facts -/

section
variable {funcs : List InitFunction} {p q : String → Prop} {f : InitFunction} {x : String}

theorem findFunc_eq_some (h : findFunc funcs x = some f) : f ∈ funcs ∧ f.ifName = x :=
  ⟨mem_of_find?_eq_some h, by simpa using find?_some h⟩

theorem findFunc_eq_none (h : findFunc funcs x = none) : ∀ g ∈ funcs, g.ifName ≠ x := by
  simpa [findFunc, find?_eq_none] using h

theorem declaredBy_congr (h : ∀ g ∈ funcs, (p g.ifName ↔ q g.ifName)) :
    declaredBy funcs p x = declaredBy funcs q x := by
  classical
  unfold declaredBy
  rw [filter_congr fun g hg => decide_eq_decide.mpr (h g hg)]

theorem declaredBy_eq_zero (h : ∀ g ∈ funcs, ¬ p g.ifName) : declaredBy funcs p x = 0 := by
  classical
  unfold declaredBy
  rw [filter_eq_nil_iff.mpr (by simpa using h)]
  rfl

open Classical in
theorem declaredBy_cons : declaredBy (f :: funcs) p x
      = (if p f.ifName then f.ifDeps.count x else 0) + declaredBy funcs p x := by
  unfold declaredBy
  by_cases h : p f.ifName <;> simp [h, count_append]

theorem declaredBy_erase (hnames : (funcs.map (·.ifName)).Nodup) (hf : f ∈ funcs)
    (hp : p f.ifName) :
    declaredBy funcs p x
      = f.ifDeps.count x + declaredBy funcs (fun g => p g ∧ g ≠ f.ifName) x := by
  induction funcs with
  | nil => cases hf
  | cons g funcs ih =>
    rw [map_cons, nodup_cons] at hnames
    have hne : ∀ g' ∈ funcs, g'.ifName ≠ g.ifName := fun g' hg' heq =>
      hnames.1 (mem_map.mpr ⟨g', hg', heq⟩)
    rw [declaredBy_cons, declaredBy_cons]
    obtain rfl | hf := mem_cons.mp hf
    · have hrest : declaredBy funcs (fun g => p g ∧ g ≠ f.ifName) x = declaredBy funcs p x :=
        declaredBy_congr fun g' hg' => and_iff_left (hne g' hg')
      rw [hrest, if_pos hp, if_neg fun h => h.2 rfl, Nat.zero_add]
    · have hgf : g.ifName ≠ f.ifName := (hne f hf).symm
      rw [ih hnames.2 hf]
      by_cases hpg : p g.ifName
      · rw [if_pos hpg, if_pos ⟨hpg, hgf⟩]
        omega
      · rw [if_neg hpg, if_neg fun h => hpg h.1]
        omega

theorem Ordered.nil : Ordered funcs [] := by
  intro before x after heq
  simp at heq

variable (h : Ordered funcs calls)
include h

/-- A table in order: `x` is appended when all it depends on is there. -/
theorem Ordered.append (hx : ∀ f ∈ funcs, f.ifName = x → ∀ d ∈ f.ifDeps, d ∈ calls) :
    Ordered funcs (calls ++ [x]) := by
  intro before y after heq f hf hname d hd
  obtain rfl | ⟨after, z, rfl⟩ := eq_nil_or_concat after
  · obtain ⟨rfl, hxy⟩ := append_inj' heq rfl
    cases hxy
    exact hx f hf hname d hd
  · have heq' : calls ++ [x] = (before ++ y :: after) ++ [z] := by simpa using heq
    exact h before y after (append_inj' heq' rfl).1 f hf hname d hd

theorem Ordered.dep (ha : a ∈ calls) (hab : Dep funcs a b) : b ∈ calls := by
  obtain ⟨before, after, rfl⟩ := append_of_mem ha
  obtain ⟨f, hf, hname, hb⟩ := hab
  exact mem_append_left _ (h before a after rfl f hf hname b hb)

theorem Ordered.reach (ha : a ∈ calls) (hab : ReflTransGen (Dep funcs) a b) : b ∈ calls := by
  induction hab with
  | refl => exact ha
  | tail _ hd ih => exact h.dep ih hd

theorem Ordered.idxOf_lt (hnodup : calls.Nodup) (ha : a ∈ calls) (hab : TransGen (Dep funcs) a b) :
    calls.idxOf b < calls.idxOf a := by
  have hstep : ∀ {a b}, a ∈ calls → Dep funcs a b → calls.idxOf b < calls.idxOf a := by
    intro a b ha hab
    obtain ⟨before, after, rfl⟩ := append_of_mem ha
    obtain ⟨f, hf, hname, hb⟩ := hab
    have hbefore : b ∈ before := h before a after rfl f hf hname b hb
    have hnot : a ∉ before := by
      intro hmem
      exact (nodup_append.mp hnodup).2.2 a hmem a (mem_cons_self ..) rfl
    rw [idxOf_append_of_mem hbefore, idxOf_append_of_notMem hnot]
    have := idxOf_lt_length_of_mem hbefore
    omega
  induction hab with
  | single hd => exact hstep ha hd
  | tail hac hd ih => exact (hstep (h.reach ha hac.to_reflTransGen) hd).trans ih

theorem Ordered.acyclic (hnodup : calls.Nodup) (hall : ∀ f ∈ funcs, f.ifName ∈ calls) (a : String) :
    ¬ TransGen (Dep funcs) a a := by
  intro hcyc
  obtain ⟨-, ⟨f, hf, rfl, -⟩, -⟩ := TransGen.head'_iff.mp hcyc
  exact lt_irrefl _ (h.idxOf_lt hnodup (hall f hf) hcyc)

end

/-! ## 5. How the search can end -/

/-- It returns something that satisfies `Q`, or panics, in which case `P` holds. -/
def Settles {α : Type} (x : Except Halt α) (P : Prop) (Q : α → Prop) : Prop :=
  (∃ a, x = .ok a ∧ Q a) ∨ ∃ fmt, x = .error (.panic fmt) ∧ P

theorem Settles.ok {a : α} {Q : α → Prop} (h : Q a) : Settles (.ok a) P Q := .inl ⟨a, rfl, h⟩

theorem Settles.bind {β : Type} {x : Except Halt α} {g : α → Except Halt β}
    {Q : α → Prop} {R : β → Prop} (h : Settles x P Q) (hg : ∀ a, Q a → Settles (g a) P R) :
    Settles (x >>= g) P R := by
  obtain ⟨a, rfl, ha⟩ | ⟨fmt, rfl, hP⟩ := h
  · exact hg a ha
  · exact .inr ⟨fmt, rfl, hP⟩

theorem Settles.imp {x : Except Halt α} {Q Q' : α → Prop}
    (h : Settles x P Q) (himp : ∀ a, Q a → Q' a) : Settles x P Q' := by
  obtain ⟨a, rfl, ha⟩ | hP := h
  · exact .inl ⟨a, rfl, himp a ha⟩
  · exact .inr hP

/-! ## 6. One search

The search with number `n` starts at the `k`-th function, `root`.  Of the functions that `root` is
the first to lead to, some are numbered `n` already.  Each of those but `root` was named once; the
others' declarations are still to come, and those on the stack are in `R` (`Balance`). -/

/-- The calls made so far are in order. -/
structure Log (funcs : List InitFunction) (s : InitState) : Prop where
  mem : ∀ x, x ∈ s.calls ↔ s.ifCalled x = true
  nodup : s.calls.Nodup
  ordered : Ordered funcs s.calls
  names : ∀ x ∈ s.calls, ∃ f ∈ funcs, f.ifName = x

/-- The numbers and the calls during search `n`, which was started at the `k`-th function. -/
structure Search (funcs : List InitFunction) (n k : Nat) (s : InitState) : Prop where
  bound : ∀ x, s.ifSearch x ≤ n
  new : ∀ x, s.ifSearch x = n → New funcs k x
  before : ∀ x, Found funcs k x → s.ifCalled x = true
  called : ∀ x, s.ifCalled x = true → Found funcs k x ∨ s.ifSearch x = n
  log : Log funcs s

open Classical in
/-- Every declaration is accounted for: it led to a function, is on the stack, or is
still to come. -/
def Balance (funcs : List InitFunction) (n k : Nat) (root : String) (R : List String)
    (s : InitState) : Prop :=
  ∀ x, New funcs k x → (if s.ifSearch x = n ∧ x ≠ root then 1 else 0) + R.count x
      + declaredBy funcs (fun g => New funcs k g ∧ s.ifSearch g ≠ n) x
    = declaredBy funcs (New funcs k) x

/-- What a part of search `n` does to the state. -/
structure Advance (n : Nat) (s t : InitState) : Prop where
  searched : ∀ x, s.ifSearch x = n → t.ifSearch x = n
  kept : ∀ x, s.ifCalled x = true → t.ifCalled x = true
  only : ∀ x, t.ifCalled x = true → s.ifCalled x = true ∨ s.ifSearch x ≠ n
  done : ∀ x, t.ifSearch x = n → s.ifSearch x = n ∨ t.ifCalled x = true

theorem Advance.refl (n : Nat) (s : InitState) : Advance n s s :=
  ⟨fun _ h => h, fun _ h => h, fun _ h => .inl h, fun _ h => .inl h⟩

theorem Advance.trans {u : InitState} (h : Advance n s t) (h' : Advance n t u) : Advance n s u where
  searched x hx := h'.searched x (h.searched x hx)
  kept x hx := h'.kept x (h.kept x hx)
  only x hx := by
    obtain hx | hx := h'.only x hx
    · exact h.only x hx
    · exact .inr fun hs => hx (h.searched x hs)
  done x hx := by
    obtain hx | hx := h'.done x hx
    · obtain hx | hx := h.done x hx
      · exact .inl hx
      · exact .inr (h'.kept x hx)
    · exact .inr hx

/-- How many functions search `n` has not numbered. -/
def unvisited (funcs : List InitFunction) (n : Nat) (s : InitState) : Nat :=
  (funcs.filter fun g => s.ifSearch g.ifName ≠ n).length

theorem Advance.unvisited_le (h : Advance n s t) : unvisited funcs n t ≤ unvisited funcs n s := by
  refine List.Sublist.length_le (monotone_filter_right funcs fun g hg => ?_)
  simp only [decide_eq_true_eq] at hg ⊢
  exact fun hs => hg (h.searched _ hs)

section
variable {funcs : List InitFunction} {n k : Nat} {s t : InitState} {root : InitFunction}
  {f func : InitFunction} {R : List String} {x : String}

theorem enter_ifSearch : (s.enter x n).ifSearch x = n := update_self ..

theorem enter_ifSearch_of_ne (h : y ≠ x) : (s.enter x n).ifSearch y = s.ifSearch y :=
  update_of_ne h ..

theorem unvisited_enter (hf : f ∈ funcs) (hs : s.ifSearch f.ifName ≠ n) :
    unvisited funcs n (s.enter f.ifName n) < unvisited funcs n s := by
  have hsub : (funcs.filter fun g => (s.enter f.ifName n).ifSearch g.ifName ≠ n)
      = (funcs.filter fun g => s.ifSearch g.ifName ≠ n).filter
        fun g => decide (g.ifName ≠ f.ifName) := by
    rw [filter_filter]
    refine filter_congr fun g _ => ?_
    by_cases hg : g.ifName = f.ifName
    · simp [hg, enter_ifSearch]
    · simp [hg, enter_ifSearch_of_ne]
  unfold unvisited
  rw [hsub]
  refine length_filter_lt_length_iff_exists.mpr ⟨f, ?_, by simp⟩
  simp [hf, hs]

theorem Search.enter (h : Search funcs n k s) (hnew : New funcs k x) :
    Search funcs n k (s.enter x n) where
  bound y := by
    by_cases hy : y = x
    · exact Nat.le_of_eq (hy ▸ enter_ifSearch)
    · rw [enter_ifSearch_of_ne hy]
      exact h.bound y
  new y hy := by
    by_cases hyx : y = x
    · exact hyx ▸ hnew
    · rw [enter_ifSearch_of_ne hyx] at hy
      exact h.new y hy
  before := h.before
  called y hy := by
    by_cases hyx : y = x
    · exact .inr (hyx ▸ enter_ifSearch)
    · rw [enter_ifSearch_of_ne hyx]
      exact h.called y hy
  log := ⟨h.log.mem, h.log.nodup, h.log.ordered, h.log.names⟩

/-- Going into a function puts its declarations on the stack, and uses up the one that led there. -/
theorem Balance.enter (hnames : (funcs.map (·.ifName)).Nodup) (hf : f ∈ funcs)
    (hnew : New funcs k f.ifName) (hs : s.ifSearch f.ifName ≠ n)
    (h : Balance funcs n k root.ifName R s) (R' : List String)
    (hR : ∀ x, R.count x = R'.count x + if x = f.ifName ∧ x ≠ root.ifName then 1 else 0) :
    Balance funcs n k root.ifName (f.ifDeps ++ R') (s.enter f.ifName n) := by
  classical
  intro x hx
  have hbal := h x hx
  rw [declaredBy_erase hnames hf ⟨hnew, hs⟩, hR x] at hbal
  have hcongr : declaredBy funcs (fun g => New funcs k g ∧ (s.enter f.ifName n).ifSearch g ≠ n) x
      = declaredBy funcs (fun g => (New funcs k g ∧ s.ifSearch g ≠ n) ∧ g ≠ f.ifName) x := by
    refine declaredBy_congr fun g _ => ?_
    by_cases hg : g.ifName = f.ifName
    · simp [hg, enter_ifSearch]
    · simp [hg, enter_ifSearch_of_ne]
  rw [hcongr, count_append, ← hbal]
  by_cases hxf : x = f.ifName
  · subst hxf
    simp only [enter_ifSearch, hs, true_and, false_and, if_false]
    split <;> omega
  · simp only [enter_ifSearch_of_ne hxf, hxf, false_and, if_false]
    omega

theorem New.reach (hroot : funcs[k]? = some root) (h : New funcs k x) :
    ReflTransGen (Dep funcs) root.ifName x := by
  obtain ⟨⟨f, hf, hreach⟩, hnot⟩ := h
  rw [take_add_one, hroot, mem_append] at hf
  obtain hf | hf := hf
  · exact absurd ⟨f, hf, hreach⟩ hnot
  · rw [mem_singleton.mp hf] at hreach
    exact hreach

theorem Found.of_reach (hroot : funcs[k]? = some root)
    (h : ReflTransGen (Dep funcs) root.ifName x) : Found funcs (k + 1) x :=
  ⟨root, by rw [take_add_one, hroot]; simp, h⟩

/-- A fault of the table that a panic reports. -/
abbrev Faulty (funcs : List InitFunction) : Prop := ¬ (Sound funcs ∧ Once funcs)

theorem faulty_of_missing (hf : func ∈ funcs) {d : String} (hd : d ∈ func.ifDeps)
    (hnone : findFunc funcs d = none) : Faulty funcs := by
  rintro ⟨hsound, -⟩
  obtain ⟨g, hg, hname⟩ := hsound.exist func hf d hd
  exact findFunc_eq_none hnone g hg hname

/-- A function that has the number of the search already: it is the root, which closes a cycle, or a
declaration has led to it before. -/
theorem faulty_of_numbered (hroot : funcs[k]? = some root) (hf : func ∈ funcs)
    (hfunc : s.ifSearch func.ifName = n) (hx : s.ifSearch x = n) (hd : x ∈ func.ifDeps)
    (h : Search funcs n k s) (hbal : Balance funcs n k root.ifName (x :: R) s) : Faulty funcs := by
  rintro ⟨hsound, honce⟩
  have hnew : New funcs k x := h.new x hx
  by_cases hxr : x = root.ifName
  · refine hsound.acyclic root.ifName (TransGen.tail' ((h.new _ hfunc).reach hroot) ?_)
    exact ⟨func, hf, rfl, hxr ▸ hd⟩
  · have hcount := hbal x hnew
    rw [if_pos ⟨hx, hxr⟩, count_cons_self] at hcount
    have := honce k x hnew
    omega

/-- What a call of `_init_call` for `f`, which was numbered last, leaves behind. -/
structure Finished (funcs : List InitFunction) (n k : Nat) (root f : String) (R : List String)
    (s t : InitState) : Prop where
  advance : Advance n s t
  called : t.ifCalled f = true
  search : Search funcs n k t
  balance : Balance funcs n k root R t

/-- The loop over the dependencies, from what the recursive calls do. -/
theorem initDeps_spec (hnames : (funcs.map (·.ifName)).Nodup) (hroot : funcs[k]? = some root)
    (fuel : Nat) {call : InitState → InitFunction → Except Halt InitState}
    (hcall : ∀ s f R, f ∈ funcs → s.ifSearch f.ifName ≠ n → s.ifCalled f.ifName = false →
      Search funcs n k (s.enter f.ifName n) →
      Balance funcs n k root.ifName (f.ifDeps ++ R) (s.enter f.ifName n) →
      (s.enter f.ifName n).ifSearch root.ifName = n → unvisited funcs n s ≤ fuel →
      Settles (call (s.enter f.ifName n) f) (Faulty funcs)
        (Finished funcs n k root.ifName f.ifName R s))
    (hf : func ∈ funcs) {deps : List String} (hdeps : ∀ d ∈ deps, d ∈ func.ifDeps) (R : List String)
    (s : InitState) (hs : s.ifSearch func.ifName = n) (h : Search funcs n k s)
    (hbal : Balance funcs n k root.ifName (deps ++ R) s) (hrn : s.ifSearch root.ifName = n)
    (hfuel : unvisited funcs n s ≤ fuel) :
    Settles (deps.foldlM (initDep funcs call func) s) (Faulty funcs) fun t =>
      Advance n s t ∧ (∀ d ∈ deps, t.ifCalled d = true) ∧ Search funcs n k t ∧
      Balance funcs n k root.ifName R t := by
  induction deps generalizing s with
  | nil => exact .ok ⟨.refl n s, nofun, h, hbal⟩
  | cons d deps ih =>
    have hd : d ∈ func.ifDeps := hdeps d (mem_cons_self ..)
    have hrest : ∀ d ∈ deps, d ∈ func.ifDeps := fun d hd => hdeps d (.tail _ hd)
    rw [foldlM_cons]
    cases hfind : findFunc funcs d with
    | none =>
      rw [initDep, hfind]
      exact .inr ⟨_, rfl, faulty_of_missing hf hd hfind⟩
    | some f =>
      obtain ⟨hmem, rfl⟩ := findFunc_eq_some hfind
      rw [initDep, hfind]
      dsimp only
      by_cases hnum : s.ifSearch f.ifName = n
      · rw [if_pos (hs.trans hnum.symm)]
        exact .inr ⟨_, rfl, faulty_of_numbered hroot hf hs hnum hd h hbal⟩
      rw [if_neg fun heq => hnum (heq.symm.trans hs), hs]
      cases hc : s.ifCalled f.ifName with
      | true =>
        -- called by an earlier search, so that its declarations do not count in this one
        have hfound : Found funcs k f.ifName := (h.called _ hc).resolve_right hnum
        have hbal' : Balance funcs n k root.ifName (deps ++ R) s := by
          intro x hx
          have hne : f.ifName ≠ x := fun heq => hx.2 (heq ▸ hfound)
          have := hbal x hx
          rwa [cons_append, count_cons_of_ne hne] at this
        refine (ih hrest s hs h hbal' hrn hfuel).imp fun t ht => ⟨ht.1, ?_, ht.2.2⟩
        exact forall_mem_cons.mpr ⟨ht.1.kept _ hc, ht.2.1⟩
      | false =>
        have hnew : New funcs k f.ifName := by
          refine ⟨.of_reach hroot (((h.new _ hs).reach hroot).tail ⟨func, hf, rfl, hd⟩),
            fun hfound => ?_⟩
          rw [h.before _ hfound] at hc
          cases hc
        have hfr : f.ifName ≠ root.ifName := fun heq => hnum (heq ▸ hrn)
        have hbal' : Balance funcs n k root.ifName (f.ifDeps ++ (deps ++ R))
            (s.enter f.ifName n) := by
          refine hbal.enter hnames hmem hnew hnum (deps ++ R) fun x => ?_
          rw [cons_append, count_cons]
          congr 1
          by_cases hxf : f.ifName = x
          · subst hxf
            simp [hfr]
          · simp [hxf, Ne.symm hxf]
        refine (hcall s f (deps ++ R) hmem hnum hc (h.enter hnew) hbal'
          ((enter_ifSearch_of_ne hfr.symm).trans hrn) hfuel).bind fun t ht => ?_
        refine (ih hrest t (ht.advance.searched _ hs) ht.search ht.balance
          (ht.advance.searched _ hrn) (ht.advance.unvisited_le.trans hfuel)).imp fun u hu => ?_
        exact ⟨ht.advance.trans hu.1, forall_mem_cons.mpr ⟨hu.1.kept _ ht.called, hu.2.1⟩, hu.2.2⟩

@[simp] theorem call_ifCalled : (s.call x).ifCalled x = true := update_self ..

theorem call_ifCalled_of_ne (h : y ≠ x) : (s.call x).ifCalled y = s.ifCalled y :=
  update_of_ne h ..

theorem Advance.call (h : Advance n (s.enter x n) t) (hs : s.ifSearch x ≠ n) :
    Advance n s (t.call x) where
  searched y hy := by
    refine h.searched y ?_
    rwa [enter_ifSearch_of_ne]
    rintro rfl
    exact hs hy
  kept y hy := by
    by_cases hyx : y = x
    · rw [hyx, call_ifCalled]
    · rw [call_ifCalled_of_ne hyx]
      exact h.kept y hy
  only y hy := by
    by_cases hyx : y = x
    · exact .inr (hyx ▸ hs)
    · rw [call_ifCalled_of_ne hyx] at hy
      refine (h.only y hy).imp_right fun hn => ?_
      rwa [enter_ifSearch_of_ne hyx] at hn
  done y hy := by
    by_cases hyx : y = x
    · exact .inr (hyx ▸ call_ifCalled)
    · rw [call_ifCalled_of_ne hyx]
      refine (h.done y hy).imp_left fun hn => ?_
      rwa [enter_ifSearch_of_ne hyx] at hn

theorem Search.call (h : Search funcs n k s) (hf : f ∈ funcs)
    (hnames : (funcs.map (·.ifName)).Nodup) (hs : s.ifSearch f.ifName = n)
    (hc : s.ifCalled f.ifName = false) (hdeps : ∀ d ∈ f.ifDeps, s.ifCalled d = true) :
    Search funcs n k (s.call f.ifName) where
  bound := h.bound
  new := h.new
  before x hx := by
    by_cases hxf : x = f.ifName
    · rw [hxf, call_ifCalled]
    · rw [call_ifCalled_of_ne hxf]
      exact h.before x hx
  called x hx := by
    by_cases hxf : x = f.ifName
    · exact .inr (hxf ▸ hs)
    · rw [call_ifCalled_of_ne hxf] at hx
      exact h.called x hx
  log := by
    have hnot : f.ifName ∉ s.calls := by
      rw [h.log.mem, hc]
      exact Bool.false_ne_true
    refine ⟨fun x => ?_, ?_, h.log.ordered.append ?_, ?_⟩
    · by_cases hxf : x = f.ifName
      · simp [InitState.call, hxf]
      · simpa [InitState.call, hxf] using h.log.mem x
    · exact nodup_append.mpr ⟨h.log.nodup, nodup_singleton _, by
        rintro a ha b hb rfl
        exact hnot (mem_singleton.mp hb ▸ ha)⟩
    · intro g hg hname d hd
      obtain rfl : g = f := inj_on_of_nodup_map hnames hg hf hname
      exact (h.log.mem d).mpr (hdeps d hd)
    · intro x hx
      obtain hx | hx := mem_append.mp hx
      · exact h.log.names x hx
      · exact ⟨f, hf, (mem_singleton.mp hx).symm⟩

/-- **`_init_call` returns or reports a fault of the table**: it ends because every nested call
numbers one more function. -/
theorem initCall_spec (hnames : (funcs.map (·.ifName)).Nodup) (hroot : funcs[k]? = some root)
    {fuel : Nat} (s : InitState) (f : InitFunction) (R : List String) (hf : f ∈ funcs)
    (hs : s.ifSearch f.ifName ≠ n) (hc : s.ifCalled f.ifName = false)
    (h : Search funcs n k (s.enter f.ifName n))
    (hbal : Balance funcs n k root.ifName (f.ifDeps ++ R) (s.enter f.ifName n))
    (hrn : (s.enter f.ifName n).ifSearch root.ifName = n) (hfuel : unvisited funcs n s ≤ fuel) :
    Settles (initCall funcs fuel (s.enter f.ifName n) f) (Faulty funcs)
      (Finished funcs n k root.ifName f.ifName R s) := by
  have hlt := unvisited_enter hf hs
  induction fuel generalizing s f R with
  | zero => omega
  | succ fuel ih =>
    rw [initCall]
    refine (initDeps_spec hnames hroot fuel (fun s f R hf hs hc h hbal hrn hfuel =>
        ih s f R hf hs hc h hbal hrn hfuel (unvisited_enter hf hs))
      hf (fun d hd => hd) R _ enter_ifSearch h hbal hrn (by omega)).bind fun t ht => ?_
    obtain ⟨hadv, hdeps, hsearch, hbal'⟩ := ht
    have htc : t.ifCalled f.ifName = false := by
      cases htc : t.ifCalled f.ifName with
      | false => rfl
      | true =>
        obtain hold | hold := hadv.only _ htc
        · exact hold.symm.trans hc
        · exact absurd enter_ifSearch hold
    rw [htc, Bool.not_false, kassert_true, ok_bind]
    have hts : t.ifSearch f.ifName = n := hadv.searched _ enter_ifSearch
    exact .ok ⟨hadv.call hs, call_ifCalled, hsearch.call hf hnames hts htc hdeps, hbal'⟩

end

/-! ## 7. All searches -/

/-- The state before the `k`-th function is looked at, after `n` searches. -/
structure Between (funcs : List InitFunction) (n k : Nat) (s : InitState) : Prop where
  bound : ∀ x, s.ifSearch x ≤ n
  called : ∀ x, s.ifCalled x = true ↔ Found funcs k x
  log : Log funcs s
  once : ∀ j < k, ∀ x, New funcs j x → declaredBy funcs (New funcs j) x ≤ 1

section
variable {funcs : List InitFunction} {n k : Nat} {s t : InitState}
  {root : InitFunction} {x : String}

theorem Found.mono (h : Found funcs k x) : Found funcs (k + 1) x := by
  obtain ⟨f, hf, hreach⟩ := h
  exact ⟨f, (take_sublist_take_left (Nat.le_succ k)).subset hf, hreach⟩

theorem between_boot (funcs : List InitFunction) :
    Between funcs 0 0 ⟨fun _ => 0, fun _ => false, []⟩ := by
  refine ⟨fun _ => Nat.le_refl 0, fun x => ⟨nofun, ?_⟩,
    ⟨fun x => ⟨nofun, nofun⟩, .nil, .nil, nofun⟩, nofun⟩
  rintro ⟨f, hf, -⟩
  rw [take_zero] at hf
  cases hf

variable (hnames : (funcs.map (·.ifName)).Nodup)

section
variable (hroot : funcs[k]? = some root) (h : Between funcs n k s)
include hroot h

/-- A function that an earlier search has called leads to nothing new. -/
theorem Between.skip (hc : s.ifCalled root.ifName = true) : Between funcs n (k + 1) s := by
  have hold : ∀ x, ¬ New funcs k x := by
    intro x hx
    obtain ⟨f, hf, hreach⟩ := (h.called _).mp hc
    exact hx.2 ⟨f, hf, hreach.trans (hx.reach hroot)⟩
  refine ⟨h.bound, fun x => (h.called x).trans ⟨.mono, fun hx => ?_⟩, h.log, fun j hj x hx => ?_⟩
  · by_contra hnot
    exact hold x ⟨hx, hnot⟩
  · obtain hj | rfl := Nat.lt_succ_iff_lt_or_eq.mp hj
    · exact h.once j hj x hx
    · exact absurd hx (hold x)

theorem Between.start (hc : s.ifCalled root.ifName = false) :
    Search funcs (n + 1) k (s.enter root.ifName (n + 1)) := by
  have hnew : New funcs k root.ifName := by
    refine ⟨.of_reach hroot .refl, fun hfound => ?_⟩
    rw [(h.called _).mpr hfound] at hc
    cases hc
  have hfresh : Search funcs (n + 1) k s := by
    refine ⟨fun x => Nat.le_succ_of_le (h.bound x), fun x hx => ?_, fun x => (h.called x).mpr,
      fun x hx => .inl ((h.called x).mp hx), h.log⟩
    have := h.bound x
    omega
  exact hfresh.enter hnew

/-- The search is over: everything its root leads to is called. -/
theorem Between.finish (hfin : Finished funcs (n + 1) k root.ifName root.ifName [] s t) :
    Between funcs (n + 1) (k + 1) t := by
  have hfresh : ∀ x, s.ifSearch x ≠ n + 1 := by
    intro x hx
    have := h.bound x
    omega
  have hcalled : ∀ x, t.ifSearch x = n + 1 → t.ifCalled x = true := fun x hx =>
    (hfin.advance.done x hx).resolve_left (hfresh x)
  have hfound : ∀ x, Found funcs (k + 1) x → t.ifCalled x = true := by
    intro x hx
    by_cases hk : Found funcs k x
    · exact hfin.search.before x hk
    · have hmem : root.ifName ∈ t.calls := (hfin.search.log.mem _).mpr hfin.called
      exact (hfin.search.log.mem x).mp
        (hfin.search.log.ordered.reach hmem (New.reach hroot ⟨hx, hk⟩))
  have hnum : ∀ x, New funcs k x → t.ifSearch x = n + 1 := fun x hx =>
    (hfin.search.called x (hfound x hx.1)).resolve_left hx.2
  refine ⟨hfin.search.bound, fun x => ⟨fun hx => ?_, hfound x⟩, hfin.search.log,
    fun j hj x hx => ?_⟩
  · obtain hx | hx := hfin.search.called x hx
    · exact hx.mono
    · exact (hfin.search.new x hx).1
  · obtain hj | rfl := Nat.lt_succ_iff_lt_or_eq.mp hj
    · exact h.once j hj x hx
    · -- nothing is pending any more, so that the declarations are those that led somewhere
      have hbal := hfin.balance x hx
      rw [declaredBy_eq_zero fun g _ hg => hg.2 (hnum _ hg.1), count_nil] at hbal
      rw [← hbal]
      split <;> omega
include hnames

/-- Nothing is numbered: all declarations are still to come, those of the root now on the stack. -/
theorem Between.balance (hc : s.ifCalled root.ifName = false) :
    Balance funcs (n + 1) k root.ifName (root.ifDeps ++ []) (s.enter root.ifName (n + 1)) := by
  have hfresh : ∀ x, s.ifSearch x ≠ n + 1 := by
    intro x hx
    have := h.bound x
    omega
  have hbal : Balance funcs (n + 1) k root.ifName [] s := by
    intro x _
    rw [if_neg fun hx => hfresh x hx.1, count_nil,
      declaredBy_congr (q := New funcs k) fun g _ => and_iff_left (hfresh _)]
    omega
  refine hbal.enter hnames (mem_of_getElem? hroot) ((h.start hroot hc).new _ enter_ifSearch)
    (hfresh _) [] fun x => ?_
  rw [if_neg fun hx => hx.2 hx.1, Nat.add_zero]

theorem initRound_spec :
    Settles (initRound funcs (n, s) root) (Faulty funcs) fun c =>
      Between funcs c.1 (k + 1) c.2 := by
  rw [initRound]
  cases hc : s.ifCalled root.ifName with
  | true => exact .ok (h.skip hroot hc)
  | false =>
    have hs : s.ifSearch root.ifName ≠ n + 1 := by
      have := h.bound root.ifName
      omega
    refine (initCall_spec hnames hroot s root [] (mem_of_getElem? hroot) hs hc (h.start hroot hc)
      (h.balance hnames hroot hc) enter_ifSearch (length_filter_le ..)).bind fun t ht => ?_
    exact .ok (h.finish hroot ht)

end
include hnames

/-- **All rounds.** -/
theorem initRounds_spec {before after : List InitFunction} (hsplit : funcs = before ++ after)
    {c : Nat × InitState} (h : Between funcs c.1 before.length c.2) :
    Settles (after.foldlM (initRound funcs) c) (Faulty funcs)
      fun c => Between funcs c.1 funcs.length c.2 := by
  induction after generalizing before c with
  | nil =>
    rw [append_nil] at hsplit
    exact .ok (hsplit ▸ h)
  | cons root after ih =>
    have hroot : funcs[before.length]? = some root := by
      rw [hsplit, getElem?_append_right le_rfl, Nat.sub_self]
      rfl
    rw [foldlM_cons]
    refine (initRound_spec hnames hroot h).bind fun c' hc' => ?_
    have hnext : funcs = (before ++ [root]) ++ after := by rw [hsplit, append_assoc]; rfl
    refine ih hnext ?_
    rwa [length_append]

/-- All functions have been looked at. -/
theorem Between.sound (h : Between funcs n funcs.length s) :
    Sound funcs ∧ Once funcs ∧ s.calls.Perm (funcs.map (·.ifName)) := by
  have hall : ∀ f ∈ funcs, f.ifName ∈ s.calls := fun f hf =>
    (h.log.mem _).mpr ((h.called _).mpr ⟨f, by rwa [take_length], .refl⟩)
  refine ⟨⟨fun f hf d hd => ?_, h.log.ordered.acyclic h.log.nodup hall⟩, fun k x hx => ?_, ?_⟩
  · exact h.log.names d (h.log.ordered.dep (hall f hf) ⟨f, hf, rfl, hd⟩)
  · by_cases hk : k < funcs.length
    · exact h.once k hk x hx
    · refine absurd ?_ hx.2
      obtain ⟨f, hf, hreach⟩ := hx.1
      rw [take_of_length_le (by omega)] at hf
      exact ⟨f, by rwa [take_of_length_le (by omega)], hreach⟩
  · refine (perm_ext_iff_of_nodup h.log.nodup hnames).mpr fun x => ⟨fun hx => ?_, fun hx => ?_⟩
    · obtain ⟨f, hf, rfl⟩ := h.log.names x hx
      exact mem_map_of_mem hf
    · obtain ⟨f, hf, rfl⟩ := mem_map.mp hx
      exact hall f hf

end

/-- The outcome, for every table. -/
theorem initCallAll_settles (hnames : (funcs.map (·.ifName)).Nodup) :
    Settles (initCallAll (initSection funcs)) (Faulty funcs) fun calls =>
      Sound funcs ∧ Once funcs ∧ calls.Perm (funcs.map (·.ifName)) ∧ Ordered funcs calls := by
  rw [initCallAll, readSection_initSection, ok_bind]
  refine (initRounds_spec hnames (nil_append funcs).symm (between_boot funcs)).bind fun c hc => ?_
  obtain ⟨hsound, honce, hperm⟩ := hc.sound hnames
  exact .ok ⟨hsound, honce, hperm, hc.log.ordered⟩

/-- **`init_call_all` does what it is for exactly on the tables that are faulty or in which no
function is named twice by functions that the same search reaches first.**  It always ends: it calls
all functions in order, or panics. -/
theorem init_order (funcs : List InitFunction) (hnames : (funcs.map (·.ifName)).Nodup) :
    (InitSpec funcs ↔ (Sound funcs → Once funcs)) ∧ (CallsInOrder funcs ∨ Panics funcs) := by
  obtain ⟨calls, hok, hsound, honce, hperm, hord⟩ | ⟨fmt, hpanic, hf⟩ := initCallAll_settles hnames
  · have hcalls : CallsInOrder funcs := ⟨calls, hok, hperm, hord⟩
    exact ⟨iff_of_true ⟨fun _ => hcalls, fun hn => absurd hsound hn⟩ fun _ => honce, .inl hcalls⟩
  · have hp : Panics funcs := ⟨fmt, hpanic⟩
    refine ⟨⟨fun hspec hsound => ?_, fun honce => ⟨fun hsound => ?_, fun _ => hp⟩⟩, .inr hp⟩
    · obtain ⟨calls, hok, -⟩ := hspec.1 hsound
      rw [hok] at hpanic
      cases hpanic
    · exact absurd ⟨hsound, honce hsound⟩ hf

/-- A function that two others depend on is called once and in order if an earlier search has called
it. -/
theorem init_order_earlier :
    CallsInOrder [⟨"d", []⟩, ⟨"b", ["d"]⟩, ⟨"c", ["d"]⟩, ⟨"a", ["b", "c"]⟩] := by
  refine (init_order _ (by decide)).2.resolve_right ?_
  rintro ⟨fmt, h⟩
  have hok : (initCallAll (initSection
      [⟨"d", []⟩, ⟨"b", ["d"]⟩, ⟨"c", ["d"]⟩, ⟨"a", ["b", "c"]⟩])).toOption.isSome = true := by
    decide +kernel
  rw [h] at hok
  cases hok

/-- **The diamond**: `a` depends on `b` and `c`, which both depend on `d`.  The search that starts
at `a` takes `d` for a cycle when it comes there from `c`. -/
theorem diamond_panics : Sound [⟨"a", ["b", "c"]⟩, ⟨"b", ["d"]⟩, ⟨"c", ["d"]⟩, ⟨"d", []⟩] ∧
    initCallAll (initSection [⟨"a", ["b", "c"]⟩, ⟨"b", ["d"]⟩, ⟨"c", ["d"]⟩, ⟨"d", []⟩])
      = .error (.panic "circular dependency between '%s' and '%s'") := by
  have hord : Ordered [⟨"a", ["b", "c"]⟩, ⟨"b", ["d"]⟩, ⟨"c", ["d"]⟩, ⟨"d", []⟩]
    ["d", "b", "c", "a"] :=
    (((Ordered.nil.append (x := "d") (by decide)).append (x := "b") (by decide)).append (x := "c")
      (by decide)).append (x := "a") (by decide)
  exact ⟨⟨by decide, hord.acyclic (by decide) (by decide)⟩, by decide +kernel⟩

end Weenix.Init
