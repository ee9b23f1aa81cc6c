import Mathlib.Order.Bounds.Basic
import StackScript.Proofs.Balance

/-!
# StackScript.Proofs.HeldSlots — a pool hands out the smallest number

A ledger keeps a pool of 32-bit numbers and, beside it, those that were handed out and not given
back.  Where only such numbers are given back, the released numbers and the held ones are together
all numbers below the next fresh one, each once (`SlotPool.Full`).  So a fresh number is taken only
when all smaller ones are held, and the high-water mark is what the most crowded moment needed.

As long as fewer than `2 ^ 32` numbers are held, the next fresh one is never zero again, and the
pool does what one of natural numbers does (`SlotPool.widened_allocate`): that is where the
arithmetic is done.
-/

namespace StackScript

namespace SlotPool

variable {p : SlotPool Nat} {slots : List Nat}

/-! ### A pool and the numbers held -/

theorem Full.perm_range (h : p.Full slots) : (p.released ++ slots).Perm (List.range p.next) := by
  have hreleased : p.released.Nodup := h.sorted.imp Nat.ne_of_lt
  have hdisjoint : ∀ a ∈ p.released, ∀ b ∈ slots, a ≠ b :=
    fun a ha b hb heq => h.not_released b hb (heq ▸ ha)
  refine (List.perm_ext_iff_of_nodup (List.nodup_append.mpr ⟨hreleased, h.nodup, hdisjoint⟩)
    List.nodup_range).mpr fun slot => ?_
  rw [List.mem_append, List.mem_range]
  exact ⟨fun hs => hs.elim (h.released_lt slot) (h.lt slot), h.covered slot⟩

theorem Full.length_add_length (h : p.Full slots) :
    p.released.length + slots.length = p.next := by
  rw [← List.length_append, h.perm_range.length_eq, List.length_range]

theorem Full.live_eq (h : p.Full slots) : p.live = slots.length := by
  show p.next - p.released.length = _
  rw [← h.length_add_length, Nat.add_sub_cancel_left]

/-- What is handed out is the smallest number that nobody holds. -/
theorem Full.isLeast_allocate (h : p.Full slots) : IsLeast {n | n ∉ slots} p.allocate.1 := by
  refine ⟨(List.nodup_cons.mp h.allocate.nodup).1, fun n hn => ?_⟩
  by_contra hlt
  have hcovered : n < p.next → n ∈ p.released :=
    fun hnext => (h.covered n hnext).resolve_right hn
  have hsorted := h.sorted
  have hbound := h.released_lt
  obtain ⟨released, next⟩ := p
  cases released with
  | nil => exact List.not_mem_nil (hcovered (Nat.lt_of_not_le hlt))
  | cons first rest =>
    have hfirst : n < first := Nat.lt_of_not_le hlt
    rcases List.mem_cons.mp (hcovered (hfirst.trans (hbound first List.mem_cons_self))) with
      rfl | hrest
    · exact Nat.lt_irrefl _ hfirst
    · exact Nat.lt_asymm hfirst ((List.pairwise_cons.mp hsorted).1 n hrest)

/-- The high-water mark rises when all numbers so far are held, and only then. -/
theorem Full.highWater_allocate (h : p.Full slots) :
    p.allocate.2.highWater = max p.highWater p.allocate.2.live := by
  have hlength := h.length_add_length
  rw [h.allocate.live_eq, List.length_cons]
  obtain ⟨released, next⟩ := p
  cases released with
  | nil =>
    rw [List.length_nil, Nat.zero_add] at hlength
    rw [hlength]
    exact (Nat.max_eq_right (Nat.le_succ next)).symm
  | cons first rest =>
    have hlength : rest.length + 1 + slots.length = next := hlength
    exact (Nat.max_eq_left (show slots.length + 1 ≤ next by omega)).symm

/-! ### Numbers of 32 bits -/

/-- The pool with the same numbers, out of all natural ones. -/
def widened (p : SlotPool UInt32) : SlotPool Nat := ⟨p.released.map UInt32.toNat, p.next.toNat⟩

section
variable (p : SlotPool UInt32) (slot : UInt32)

theorem map_insert (ns : List UInt32) :
    (insert slot ns).map UInt32.toNat = insert slot.toNat (ns.map UInt32.toNat) := by
  induction ns with
  | nil => rfl
  | cons n ns ih =>
    rw [insert, List.map_cons, insert]
    simp only [UInt32.lt_iff_toNat_lt, UInt32.toNat_inj]
    split
    · rfl
    split
    · rfl
    · rw [List.map_cons, ih]

theorem widened_release : (p.release slot).widened = p.widened.release slot.toNat :=
  congrArg (SlotPool.mk · p.next.toNat) (map_insert slot p.released)

theorem live_widened : p.widened.live = p.live :=
  congrArg (p.next.toNat - ·) (List.length_map UInt32.toNat)

theorem toNat_allocate : p.allocate.1.toNat = p.widened.allocate.1 := by
  obtain ⟨_ | ⟨first, rest⟩, next⟩ := p <;> rfl

variable {p}

/-- A number is taken from the pool in the same way, unless the next fresh one is zero again. -/
theorem widened_allocate (h : p.released = [] → p.next.toNat + 1 < UInt32.size) :
    p.allocate.2.widened = p.widened.allocate.2 := by
  obtain ⟨_ | ⟨first, rest⟩, next⟩ := p
  · have hnext : (next + 1).toNat = next.toNat + 1 := by
      rw [UInt32.toNat_add]
      exact Nat.mod_eq_of_lt (h rfl)
    exact congrArg (SlotPool.mk []) hnext
  · rfl

end

/-! ### Requests -/

/-- What a pool is asked for. -/
inductive Request where
  | take
  | giveBack (slot : UInt32)
deriving DecidableEq, Repr, Inhabited

/-- A pool, and the numbers handed out by it and not given back, the latest first. -/
structure Ledger where
  pool : SlotPool UInt32
  held : List UInt32
deriving DecidableEq, Repr, Inhabited

namespace Ledger

/-- A new pool. -/
def opened : Ledger := ⟨empty, []⟩

/-- Takes a number or gives one back. -/
def serve (l : Ledger) : Request → Ledger
  | .take => ⟨l.pool.allocate.2, l.pool.allocate.1 :: l.held⟩
  | .giveBack slot => ⟨l.pool.release slot, l.held.erase slot⟩

/-- A new pool after some requests. -/
def after (requests : List Request) : Ledger := requests.foldl serve opened

/-- Only numbers that are held at the time are given back. -/
def Honest (requests : List Request) : Prop :=
  ∀ past slot rest, requests = past ++ .giveBack slot :: rest → slot ∈ (after past).held

/-- Fewer numbers are held at any time than there are. -/
def Roomy (requests : List Request) : Prop :=
  ∀ past, past <+: requests → (after past).held.length < UInt32.size

theorem after_concat (requests : List Request) (r : Request) :
    after (requests ++ [r]) = (after requests).serve r := List.foldl_concat _ _ _ _

variable {l : Ledger} {requests past : List Request} {r : Request}

theorem Honest.earlier (h : Honest requests) (hpast : past <+: requests) : Honest past := by
  obtain ⟨rest, rfl⟩ := hpast
  rintro first slot last rfl
  exact h first slot (last ++ rest) (List.append_assoc _ _ _)

theorem Roomy.earlier (h : Roomy requests) (hpast : past <+: requests) : Roomy past :=
  fun first hfirst => h first (hfirst.trans hpast)

/-! ### What requests keep -/

/-- Below the next fresh number, each one is held or was given back. -/
def Full (l : Ledger) : Prop := l.pool.widened.Full (l.held.map UInt32.toNat)

theorem Full.live_eq (h : l.Full) : l.pool.live = l.held.length := by
  rw [← live_widened, SlotPool.Full.live_eq h, List.length_map]

/-- A taken number leaves the next fresh one below the end of the 32-bit numbers. -/
theorem Full.widened_allocate (h : l.Full) (hroom : (l.serve .take).held.length < UInt32.size) :
    l.pool.allocate.2.widened = l.pool.widened.allocate.2 := by
  refine SlotPool.widened_allocate fun hreleased => ?_
  have hlength : l.pool.released.length + l.held.length = l.pool.next.toNat := by
    simpa [widened] using SlotPool.Full.length_add_length h
  rw [hreleased, List.length_nil, Nat.zero_add] at hlength
  exact hlength ▸ hroom

/-- What one request keeps. -/
theorem Full.serve (h : l.Full) (hheld : ∀ slot, r = .giveBack slot → slot ∈ l.held)
    (hroom : (l.serve r).held.length < UInt32.size) : (l.serve r).Full := by
  cases r with
  | take =>
    show l.pool.allocate.2.widened.Full (l.pool.allocate.1.toNat :: l.held.map UInt32.toNat)
    rw [h.widened_allocate hroom, toNat_allocate]
    exact SlotPool.Full.allocate h
  | giveBack slot =>
    show (l.pool.release slot).widened.Full ((l.held.erase slot).map UInt32.toNat)
    rw [widened_release]
    have hperm := (List.perm_cons_erase (hheld slot rfl)).map UInt32.toNat
    exact (SlotPool.Full.perm h hperm).release

theorem full_after (h : Honest requests) (hroom : Roomy requests) : (after requests).Full := by
  induction requests using List.reverseRecOn with
  | nil => exact full_empty
  | append_singleton requests r ih =>
    have hpast := List.prefix_append requests [r]
    have hall := hroom _ (List.prefix_refl _)
    rw [after_concat] at hall ⊢
    refine (ih (h.earlier hpast) (hroom.earlier hpast)).serve ?_ hall
    rintro slot rfl
    exact h requests slot [] rfl

/-- What is handed out is the smallest number that nobody holds. -/
theorem Full.allocate_least (h : l.Full) :
    l.pool.allocate.1 ∉ l.held ∧ ∀ n, n ∉ l.held → l.pool.allocate.1 ≤ n := by
  obtain ⟨hfree, hleast⟩ := SlotPool.Full.isLeast_allocate h
  rw [← toNat_allocate] at hfree hleast
  refine ⟨fun hheld => hfree (List.mem_map_of_mem hheld), fun n hn => ?_⟩
  rw [UInt32.le_iff_toNat_le]
  exact hleast fun hmem => hn ((List.mem_map_of_injective fun _ _ => UInt32.toNat_inj.mp).mp hmem)

/-- One request takes the high-water mark up to the numbers that are held then. -/
theorem Full.highWater_serve (h : l.Full) (hroom : (l.serve r).held.length < UInt32.size) :
    (l.serve r).pool.highWater.toNat = max l.pool.highWater.toNat (l.serve r).pool.live := by
  cases r with
  | take =>
    have hmark := SlotPool.Full.highWater_allocate h
    rw [← h.widened_allocate hroom, live_widened] at hmark
    exact hmark
  | giveBack slot => exact (Nat.max_eq_left (Nat.sub_le _ _)).symm

/-- How many numbers were held at one moment or another. -/
def Lives (requests : List Request) : Set Nat :=
  {n | ∃ past, past <+: requests ∧ (after past).pool.live = n}

theorem mem_lives_concat {n : Nat} : n ∈ Lives (requests ++ [r]) ↔
    (after (requests ++ [r])).pool.live = n ∨ n ∈ Lives requests := by
  constructor
  · rintro ⟨past, hpast, hlive⟩
    rcases List.prefix_concat_iff.mp hpast with rfl | hpast
    · exact .inl hlive
    · exact .inr ⟨past, hpast, hlive⟩
  · rintro (hlive | ⟨past, hpast, hlive⟩)
    · exact ⟨_, List.prefix_refl _, hlive⟩
    · exact ⟨past, hpast.trans (List.prefix_append _ _), hlive⟩

theorem isGreatest_highWater (h : Honest requests) (hroom : Roomy requests) :
    IsGreatest (Lives requests) (after requests).pool.highWater.toNat := by
  induction requests using List.reverseRecOn with
  | nil =>
    refine ⟨⟨[], List.prefix_refl _, rfl⟩, ?_⟩
    rintro n ⟨past, hpast, rfl⟩
    obtain rfl := List.prefix_nil.mp hpast
    exact Nat.le_refl _
  | append_singleton requests r ih =>
    have hprefix := List.prefix_append requests [r]
    have hpast := h.earlier hprefix
    have hpastRoom := hroom.earlier hprefix
    obtain ⟨hmem, hmax⟩ := ih hpast hpastRoom
    have hall := hroom _ (List.prefix_refl _)
    rw [after_concat] at hall
    have hmark := (full_after hpast hpastRoom).highWater_serve hall
    rw [← after_concat] at hmark
    constructor
    · rw [mem_lives_concat, hmark]
      rcases max_choice (after requests).pool.highWater.toNat
        (after (requests ++ [r])).pool.live with hold | hnew
      · rw [hold]
        exact .inr hmem
      · exact .inl hnew.symm
    · intro n hn
      rw [hmark]
      rcases mem_lives_concat.mp hn with rfl | hn
      · exact Nat.le_max_right _ _
      · exact Nat.le_trans (hmax hn) (Nat.le_max_left _ _)

/-- For any requests to a new pool in which only held numbers are given back and fewer than
`2 ^ 32` are held at any time: each number that is taken is the smallest one that is not held, and
is below the high-water mark; the numbers that are held differ, the pool tells how many these are,
and its high-water mark is the most that were held at one time. -/
theorem smallest_numbers_are_handed_out (h : Honest requests) (hroom : Roomy requests) :
    let now := after requests
    (∀ past rest, requests = past ++ .take :: rest →
      let slot := (after past).pool.allocate.1
      slot ∉ (after past).held ∧ (∀ n, n ∉ (after past).held → slot ≤ n) ∧
        slot < now.pool.highWater) ∧
      now.held.Nodup ∧ now.pool.live = now.held.length ∧
      IsGreatest {n | ∃ past, past <+: requests ∧ (after past).pool.live = n}
        now.pool.highWater.toNat := by
  intro now
  have hfull := full_after h hroom
  have hgreatest := isGreatest_highWater h hroom
  refine ⟨?_, hfull.nodup.of_map _, hfull.live_eq, hgreatest⟩
  rintro past rest rfl slot
  have hpast : past <+: past ++ .take :: rest := List.prefix_append _ _
  have htaken : past ++ [.take] <+: past ++ .take :: rest := ⟨rest, List.append_assoc _ _ _⟩
  have hfullPast := full_after (h.earlier hpast) (Roomy.earlier hroom hpast)
  have hfullTaken := full_after (h.earlier htaken) (Roomy.earlier hroom htaken)
  obtain ⟨hfree, hleast⟩ := hfullPast.allocate_least
  refine ⟨hfree, hleast, ?_⟩
  -- behind the request the number is held, so it is below a mark that some moment needed
  have hlt : slot.toNat < (after (past ++ [.take])).pool.highWater.toNat := by
    refine hfullTaken.lt _ ?_
    rw [after_concat]
    exact List.mem_cons_self
  obtain ⟨moment, hmoment, hlive⟩ :=
    (isGreatest_highWater (h.earlier htaken) (Roomy.earlier hroom htaken)).1
  rw [UInt32.lt_iff_toNat_lt]
  exact hlt.trans_le (hlive ▸ hgreatest.2 ⟨moment, hmoment.trans htaken, rfl⟩)

/-- Three numbers are taken and two given back: the smallest one is taken next, and three is the
most that were held. -/
theorem smallest_numbers_are_handed_out_again :
    let past : List Request := [.take, .take, .take, .giveBack 1, .giveBack 0]
    let requests := past ++ [.take]
    Honest requests ∧ Roomy requests ∧ (after past).held = [2] ∧
      (0 ∉ (after past).held ∧ (∀ n, n ∉ (after past).held → 0 ≤ n) ∧
        0 < (after requests).pool.highWater) ∧
      (after requests).held.Nodup ∧ (after requests).pool.live = 2 ∧
      (after requests).pool.highWater = 3 := by
  intro past requests
  have honest : Honest requests := by
    have hall : ∀ i < 6, ∀ slot, requests[i]? = some (.giveBack slot) →
        slot ∈ (after (requests.take i)).held := by
      intro i hi slot hslot
      match i with
      | 0 | 1 | 2 | 5 => cases hslot
      | 3 | 4 =>
        obtain rfl := Request.giveBack.inj (Option.some.inj hslot)
        decide
    intro first slot rest heq
    have hlength : first.length < 6 := by
      have hsix : 6 = first.length + (rest.length + 1) :=
        (congrArg List.length heq).trans List.length_append
      omega
    have := hall first.length hlength slot
    rw [heq, List.take_left, List.getElem?_append_right (Nat.le_refl _), Nat.sub_self] at this
    exact this rfl
  have hroom : Roomy requests := by
    have hall : ∀ i ≤ 6, (after (requests.take i)).held.length < UInt32.size := by decide
    intro first hfirst
    rw [List.prefix_iff_eq_take.mp hfirst]
    exact hall _ hfirst.length_le
  obtain ⟨htaken, hnodup, hlive, -⟩ := smallest_numbers_are_handed_out honest hroom
  exact ⟨honest, hroom, rfl, htaken past [] rfl, hnodup, hlive, rfl⟩

end Ledger

end SlotPool

end StackScript
