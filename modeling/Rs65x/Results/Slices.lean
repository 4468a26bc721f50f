import Rs65x.Results.FastMap

/-!
# What the page-mapped bus checks of the slices

The length of a slice is looked at by an assertion only, which a release build leaves out.
-/

namespace Rs65x
open Fallible Machine

namespace FastMapBus
variable {addrBits pageShift : Nat} {bus bus' : FastMapBus addrBits pageShift} {heap heap' : Heap}

def remap (addrBits pageShift : Nat) (table : Nat → Option Slice) : HostCall → Nat → Option Slice
  | .mapRam target slice | .mapRom target slice =>
      Function.update table (target.page addrBits pageShift) (some slice)
  | .mapOpen target => Function.update table (target.page addrBits pageShift) none
  | .read .. | .write .. | .drive _ => table

def slices (addrBits pageShift : Nat) (calls : List HostCall) : Nat → Option Slice :=
  calls.foldl (remap addrBits pageShift) fun _ => none

/-- An access uses a byte of the slice mapped to its page, or none. -/
def InBounds (bus : FastMapBus addrBits pageShift) (table : Nat → Option Slice) (addr : U32) : Prop :=
  ∃ p, bus.page addr = .ok p ∧ (p.kind = .open_ ∨
    ∃ slice, table (pageIndex addrBits pageShift addr) = some slice ∧ p.ptr = slice.ptr ∧
      (addr &&& pageMask pageShift).toNat < slice.len)

def PointsTo (p : Page) : Option Slice → Prop
  | none => p.kind = .open_
  | some slice => p.kind ≠ .open_ ∧ p.ptr = slice.ptr

structure Backed (bus : FastMapBus addrBits pageShift) (table : Nat → Option Slice) : Prop where
  inside : ∀ i slice, table i = some slice → i < 1 <<< (addrBits - pageShift)
  pages : ∀ i p, bus.pages[i]? = some p → PointsTo p (table i)

variable {table : Nat → Option Slice}

theorem new_backed {prof : Profile} (h : new prof addrBits pageShift = .ok bus) :
    Backed bus fun _ => none := by
  simp only [new, bind_eq_ok] at h
  obtain ⟨-, -, -, -, eq⟩ := h
  cases eq
  refine ⟨fun _ _ mapped => absurd mapped (by simp), fun i p at_ => ?_⟩
  obtain ⟨-, rfl⟩ : i < _ ∧ Page.default = p := by
    simpa [Vector.getElem?_replicate] using at_
  rfl

theorem Backed.setPage (backed : Backed bus table) {pageIdx : Nat} {page : Page}
    (set : bus.setPage pageIdx page = .ok bus') {slice : Option Slice} (points : PointsTo page slice) :
    Backed bus' (Function.update table pageIdx slice) := by
  rw [FastMapBus.setPage] at set
  split at set
  · next lt =>
      cases set
      refine ⟨fun i slice mapped => ?_, fun i p at_ => ?_⟩
      · by_cases same : i = pageIdx
        · rw [same]
          exact lt
        · rw [Function.update_of_ne same] at mapped
          exact backed.inside i slice mapped
      · rw [Vector.getElem?_set] at at_
        by_cases same : pageIdx = i
        · rw [if_pos same] at at_
          cases at_
          rw [same, Function.update_self]
          exact points
        · rw [if_neg same] at at_
          rw [Function.update_of_ne (Ne.symm same)]
          exact backed.pages i p at_
  · cases set

theorem Backed.of_pages (backed : Backed bus table) (same : bus'.pages = bus.pages) :
    Backed bus' table := by
  refine ⟨backed.inside, ?_⟩
  rw [same]
  exact backed.pages

theorem read_pages {prof : Profile} {addr : U32} {vda vpa : Bool} {data : U8}
    (h : bus.read prof heap addr vda vpa = .ok (data, bus')) : bus'.pages = bus.pages := by
  simp only [read, bind_eq_ok] at h
  obtain ⟨-, -, p, -, h⟩ := h
  split at h <;> cases h <;> rfl

theorem write_pages {prof : Profile} {addr : U32} {data : U8} {vda vpa : Bool}
    (h : bus.write prof heap addr data vda vpa = .ok (heap', bus')) : bus'.pages = bus.pages := by
  simp only [write, bind_eq_ok] at h
  obtain ⟨-, -, p, -, h⟩ := h
  split at h <;> cases h <;> rfl

theorem Backed.serve (bits : addrBits ≤ 32) (backed : Backed bus table) {call : HostCall}
    {out : Option U8} {s : FastMapBus addrBits pageShift × Heap}
    (served : serve .release (bus, heap) call = .ok (out, s)) :
    Backed s.1 (remap addrBits pageShift table call) := by
  have released (cond : Prop) [Decidable cond] : debugAssert .release cond = .ok () := rfl
  cases call with
  | mapRam target slice =>
      have points : PointsTo ⟨slice.ptr, .ram⟩ (some slice) := ⟨PageKind.noConfusion, rfl⟩
      cases target <;>
      · simp only [FastMapBus.serve, mapRamPageAt, mapRamPageIdx, released, ok_bind, bind_eq_ok,
          pageIndex_eq bits] at served
        obtain ⟨bus', set, eq⟩ := served
        cases eq
        exact backed.setPage set points
  | mapRom target slice =>
      have points : PointsTo ⟨slice.ptr, .rom⟩ (some slice) := ⟨PageKind.noConfusion, rfl⟩
      cases target <;>
      · simp only [FastMapBus.serve, mapRomPageAt, mapRomPageIdx, released, ok_bind, bind_eq_ok,
          pageIndex_eq bits] at served
        obtain ⟨bus', set, eq⟩ := served
        cases eq
        exact backed.setPage set points
  | mapOpen target =>
      have points : PointsTo .default none := rfl
      cases target <;>
      · simp only [FastMapBus.serve, mapOpenPageAt, mapOpenPageIdx, released, ok_bind, bind_eq_ok,
          pageIndex_eq bits] at served
        obtain ⟨bus', set, eq⟩ := served
        cases eq
        exact backed.setPage set points
  | read addr vda vpa =>
      simp only [FastMapBus.serve, bind_eq_ok, Prod.exists] at served
      obtain ⟨data, bus', read, eq⟩ := served
      cases eq
      exact backed.of_pages (read_pages read)
  | write addr data vda vpa =>
      simp only [FastMapBus.serve, bind_eq_ok, Prod.exists] at served
      obtain ⟨heap', bus', write, eq⟩ := served
      cases eq
      exact backed.of_pages (write_pages write)
  | drive value =>
      cases served
      exact backed.of_pages rfl

theorem Backed.run (bits : addrBits ≤ 32) {calls : List HostCall} (backed : Backed bus table)
    {outs : List (Option U8)} {s : FastMapBus addrBits pageShift × Heap}
    (ran : Machine.run (FastMapBus.serve .release) (bus, heap) calls = .ok (outs, s)) :
    Backed s.1 (calls.foldl (remap addrBits pageShift) table) := by
  induction calls generalizing bus heap table outs with
  | nil =>
      cases ran
      exact backed
  | cons call calls ih =>
      obtain ⟨out, s', outs', served, rest, -⟩ := run_cons_ok ran
      exact ih (backed.serve bits served) rest

theorem page_eq_ok {addr : U32} {p : Page} :
    bus.page addr = .ok p ↔ bus.pages[pageIndex addrBits pageShift addr]? = some p := by
  rw [page]
  cases bus.pages[pageIndex addrBits pageShift addr]? <;> simp

def lastByte (pageShift i : Nat) : U32 := BitVec.ofNat 32 (i * 2 ^ pageShift + (2 ^ pageShift - 1))

theorem lastByte_eq (bits : addrBits ≤ 32) (shift : pageShift ≤ addrBits) (small : pageShift < 32)
    {i : Nat} (lt : i < 1 <<< (addrBits - pageShift)) :
    pageIndex addrBits pageShift (lastByte pageShift i) = i ∧
      (lastByte pageShift i &&& pageMask pageShift).toNat = pageSize pageShift - 1 := by
  have pos : 0 < 2 ^ pageShift := Nat.two_pow_pos pageShift
  have below : 2 ^ pageShift - 1 < 2 ^ pageShift := Nat.sub_lt pos Nat.one_pos
  have inside : i * 2 ^ pageShift + (2 ^ pageShift - 1) < 2 ^ addrBits := by
    rw [Nat.one_shiftLeft] at lt
    calc i * 2 ^ pageShift + (2 ^ pageShift - 1)
        < i * 2 ^ pageShift + 2 ^ pageShift := Nat.add_lt_add_left below _
      _ = (i + 1) * 2 ^ pageShift := (Nat.succ_mul _ _).symm
      _ ≤ 2 ^ (addrBits - pageShift) * 2 ^ pageShift := Nat.mul_le_mul_right _ lt
      _ = 2 ^ addrBits := by rw [← Nat.pow_add, Nat.sub_add_cancel shift]
  have value : (lastByte pageShift i).toNat = i * 2 ^ pageShift + (2 ^ pageShift - 1) := by
    have wide : 2 ^ addrBits ≤ 2 ^ 32 := Nat.pow_le_pow_right (by decide) bits
    rw [lastByte, BitVec.toNat_ofNat, Nat.mod_eq_of_lt (inside.trans_le wide)]
  rw [pageIndex_eq bits, offset_eq small, value, Nat.mod_eq_of_lt inside, pageSize, Nat.one_shiftLeft,
    Nat.mul_comm, Nat.mul_add_div pos, Nat.mul_add_mod, Nat.div_eq_of_lt below,
    Nat.mod_eq_of_lt below]
  exact ⟨rfl, rfl⟩

theorem Backed.inBounds_iff (bits : addrBits ≤ 32) (shift : pageShift ≤ addrBits) (small : pageShift < 32)
    (backed : Backed bus table) : (∀ addr, InBounds bus table addr) ↔
      ∀ page slice, table page = some slice → pageSize pageShift ≤ slice.len := by
  constructor
  · intro bounds i slice mapped
    have reached := backed.inside i slice mapped
    obtain ⟨index, offset⟩ := lastByte_eq bits shift small reached
    obtain ⟨p, found, inside⟩ := bounds (lastByte pageShift i)
    rw [index, mapped] at inside
    have at_ : bus.pages[i]? = some p := by
      rw [← index]
      exact page_eq_ok.1 found
    have points := backed.pages i p at_
    rw [mapped] at points
    obtain kind | ⟨slice', same, -, lt⟩ := inside
    · exact absurd kind points.1
    · cases same
      rw [offset] at lt
      exact Nat.le_of_pred_lt lt
  · intro whole addr
    have lt := pageIndex_lt bits shift addr
    have found : bus.pages[pageIndex addrBits pageShift addr]? = some (bus.pages.get ⟨_, lt⟩) :=
      Vector.getElem?_eq_getElem lt
    have points := backed.pages _ _ found
    refine ⟨_, page_eq_ok.2 found, ?_⟩
    cases mapped : table (pageIndex addrBits pageShift addr) with
    | none =>
        rw [mapped] at points
        exact .inl points
    | some slice =>
        rw [mapped] at points
        refine .inr ⟨slice, rfl, points.2, ?_⟩
        have offset : addr.toNat % 2 ^ pageShift < pageSize pageShift := by
          rw [pageSize, Nat.one_shiftLeft]
          exact Nat.mod_lt _ (Nat.two_pow_pos _)
        rw [offset_eq small]
        exact offset.trans_le (whole _ slice mapped)

/-- Whatever the calls, the later accesses stay inside the slices if and only if no slice is shorter
than a page. -/
theorem accesses_inside_iff (bits : addrBits ≤ 32) (shift : pageShift ≤ addrBits)
    (small : pageShift < 32) (built : new .release addrBits pageShift = .ok bus)
    {calls : List HostCall} {outs : List (Option U8)} {s : FastMapBus addrBits pageShift × Heap}
    (ran : run (serve .release) (bus, heap) calls = .ok (outs, s)) :
    (∀ addr, InBounds s.1 (slices addrBits pageShift calls) addr) ↔
      ∀ page slice, slices addrBits pageShift calls page = some slice →
        pageSize pageShift ≤ slice.len :=
  ((new_backed built).run bits ran).inBounds_iff bits shift small

def wholePages : List HostCall :=
  -- A slice of a page at page 0 and a longer one at page 1.
  [.mapRam (.idx 0) ⟨0, 4096⟩, .mapRom (.at_ 0x1000) ⟨4096, 5000⟩, .write 0xfff 7 true false]

theorem accesses_inside_wholePages : ∃ bus s, new .release 16 12 = .ok bus ∧
    run (serve .release) (bus, fun _ => 0) wholePages = .ok ([none, none, none], s) ∧
    ∀ addr, InBounds s.1 (slices 16 12 wholePages) addr := by
  refine ⟨_, _, rfl, rfl, ?_⟩
  refine (accesses_inside_iff (by decide) (by decide) (by decide) rfl rfl).2 fun page slice mapped => ?_
  simp only [slices, wholePages, List.foldl_cons, List.foldl_nil, remap, Function.update_apply] at mapped
  split at mapped
  · cases mapped
    decide
  · split at mapped
    · cases mapped
      decide
    · cases mapped

/-- A slice of one byte is mapped, and the byte after it is read. -/
theorem short_slice_read : ∃ bus s s', new .release 16 12 = .ok bus ∧
    run (serve .release) (bus, fun cell => if cell = 1 then 0x42 else 0) [.mapRam (.idx 0) ⟨0, 1⟩] =
      .ok ([none], s) ∧
    serve .release s (.read 1 true false) = .ok (some 0x42, s') ∧
    ¬ InBounds s.1 (slices 16 12 [.mapRam (.idx 0) ⟨0, 1⟩]) 1 := by
  refine ⟨_, _, _, rfl, rfl, rfl, ?_⟩
  rintro ⟨p, found, kind | ⟨slice, mapped, -, lt⟩⟩
  · cases found
    cases kind
  · cases mapped
    exact absurd lt (by decide)

end FastMapBus

end Rs65x
