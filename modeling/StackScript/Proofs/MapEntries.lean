import Mathlib.Data.List.Find
import StackScript.Proofs.Bounded

/-!
# StackScript.Proofs.MapEntries — the entries of a map as a store

The entries of a map are in no order of their keys, and loose equality is not transitive, so one key
may find entries of several others.  Both reading and writing take the first entry whose key is
loosely equal, which is all that the laws of a store need: what was written is read, and a key that
the written entry does not answer finds what it found before.

Writing changes the heap in which keys are compared.  Keys that do not lead to the map itself are
equal before and after (`Heap.looselyEqual_setMap`).
-/

namespace StackScript

variable {β : Type}

/-- Lists are compared alike by two relations that agree on their items. -/
theorem isEqv_congr {α : Type} {f g : α → α → Bool} {as bs : List α}
    (h : ∀ a ∈ as, ∀ b ∈ bs, f a b = g a b) : as.isEqv bs f = as.isEqv bs g := by
  induction as generalizing bs with
  | nil => cases bs <;> rfl
  | cons a as ih =>
    cases bs with
    | nil => rfl
    | cons b bs =>
      rw [List.isEqv_cons_cons, List.isEqv_cons_cons, h a List.mem_cons_self b List.mem_cons_self,
        ih fun a ha b hb => h a (List.mem_cons_of_mem _ ha) b (List.mem_cons_of_mem _ hb)]

namespace Heap

/-- The value is the map, or a list or map that holds a value that leads to it. -/
inductive LeadsTo (h : Heap β) (id : Nat) : Value → Prop
  | here : LeadsTo h id (.map id)
  | item {i : Nat} {v : Value} (hv : v ∈ h.list i) (hlead : LeadsTo h id v) :
    LeadsTo h id (.list i)
  | key {i : Nat} {e : Value × Value} (he : e ∈ h.map i) (hlead : LeadsTo h id e.1) :
    LeadsTo h id (.map i)
  | entry {i : Nat} {e : Value × Value} (he : e ∈ h.map i) (hlead : LeadsTo h id e.2) :
    LeadsTo h id (.map i)

/-! ### Other maps and equality -/

theorem map_setMap {h : Heap β} {id : Nat} (hid : id < h.maps.size)
    (entries : List (Value × Value)) : (h.setMap id entries).map id = entries := by
  simp [map, setMap, hid]

theorem map_setMap_of_ne {id j : Nat} (hne : id ≠ j) (h : Heap β)
    (entries : List (Value × Value)) : (h.setMap id entries).map j = h.map j := by
  simp [map, setMap, hne]

theorem depth_setMap (h : Heap β) (id : Nat) (entries : List (Value × Value)) :
    (h.setMap id entries).depth = h.depth := by
  simp [depth, setMap]

theorem sameWithin_setMap (h : Heap β) {id : Nat} (entries : List (Value × Value)) (n : Nat)
    {v w : Value} (hv : ¬ h.LeadsTo id v) (hw : ¬ h.LeadsTo id w) :
    (h.setMap id entries).sameWithin n v w = h.sameWithin n v w := by
  induction n generalizing v w with
  | zero => rfl
  | succ n ih =>
    cases v with
    | list i =>
      cases w with
      | list j =>
        rw [sameWithin, sameWithin]
        refine congrArg (i == j || ·) (isEqv_congr fun a ha b hb => ?_)
        exact ih (fun ha' => hv (.item ha ha')) fun hb' => hw (.item hb hb')
      | _ => rfl
    | map i =>
      cases w with
      | map j =>
        have hi : id ≠ i := by
          rintro rfl
          exact hv .here
        have hj : id ≠ j := by
          rintro rfl
          exact hw .here
        rw [sameWithin, sameWithin, map_setMap_of_ne hi, map_setMap_of_ne hj]
        refine congrArg (i == j || ·) (isEqv_congr fun d hd e he => ?_)
        rw [ih (fun hd' => hv (.key hd hd')) fun he' => hw (.key he he'),
          ih (fun hd' => hv (.entry hd hd')) fun he' => hw (.entry he he')]
      | _ => rfl
    | _ => cases w <;> rfl

/-- Writing a map changes no comparison of values that do not lead to it. -/
theorem looselyEqual_setMap (h : Heap β) {id : Nat} (entries : List (Value × Value))
    {v w : Value} (hv : ¬ h.LeadsTo id v) (hw : ¬ h.LeadsTo id w) :
    (h.setMap id entries).looselyEqual v w = h.looselyEqual v w := by
  have hsame : (h.setMap id entries).same v w = h.same v w := by
    rw [same, same, depth_setMap, sameWithin_setMap h entries _ hv hw]
  cases v <;> cases w <;> first | rfl | exact hsame

/-! ### Entries -/

section Entries

variable (h : Heap β) (k v : Value) (entries : List (Value × Value))

/-- The key of the entry that is written for a key. -/
def writtenKey : Value :=
  ((entries.find? fun e => h.looselyEqual e.1 k).map Prod.fst).getD k

/-- An entry is found for the key. -/
def answers : Bool := entries.any fun e => h.looselyEqual e.1 k

theorem lookup?_putEntry (hk : h.looselyEqual k k = true) :
    h.lookup? (h.putEntry k v entries) k = some v := by
  fun_induction h.putEntry k v entries with
  | case1 => simp [lookup?, hk]
  | case2 k' w rest heq => simp [lookup?, heq]
  | case3 k' w rest hne ih =>
    rw [lookup?, List.find?_cons_of_neg (by simpa using hne)]
    exact ih

theorem lookup?_putEntry_of_ne {k₂ : Value}
    (hne : h.looselyEqual (h.writtenKey k entries) k₂ = false) :
    h.lookup? (h.putEntry k v entries) k₂ = h.lookup? entries k₂ := by
  fun_induction h.putEntry k v entries with
  | case1 =>
    have hk : h.looselyEqual k k₂ = false := hne
    simp [lookup?, hk]
  | case2 k' w rest heq =>
    have hk' : h.looselyEqual k' k₂ = false := by simpa [writtenKey, heq] using hne
    simp [lookup?, hk']
  | case3 k' w rest hk' ih =>
    have hrest : h.writtenKey k ((k', w) :: rest) = h.writtenKey k rest := by
      rw [writtenKey, List.find?_cons_of_neg (by simpa using hk'), ← writtenKey]
    rw [hrest] at hne
    simp only [lookup?, List.find?_cons] at ih ⊢
    split
    · rfl
    · exact ih hne

theorem length_putEntry : (h.putEntry k v entries).length =
    entries.length + if h.answers k entries then 0 else 1 := by
  fun_induction h.putEntry k v entries with
  | case1 => rfl
  | case2 k' w rest heq => simp [answers, heq]
  | case3 k' w rest hne ih =>
    have hrest : h.answers k ((k', w) :: rest) = h.answers k rest := by simp [answers, hne]
    rw [List.length_cons, ih, List.length_cons, hrest]
    omega

/-- The keys stay, and a key that found no entry is put behind them. -/
theorem keys_putEntry : (h.putEntry k v entries).map Prod.fst =
    entries.map Prod.fst ++ if h.answers k entries then [] else [k] := by
  fun_induction h.putEntry k v entries with
  | case1 => rfl
  | case2 k' w rest heq => simp [answers, heq]
  | case3 k' w rest hne ih =>
    have hrest : h.answers k ((k', w) :: rest) = h.answers k rest := by simp [answers, hne]
    rw [List.map_cons, ih, List.map_cons, hrest, List.cons_append]

end Entries

theorem mem_keys_putEntry {h : Heap β} {k v : Value} {entries : List (Value × Value)}
    {e : Value × Value} (he : e ∈ h.putEntry k v entries) :
    e.1 = k ∨ ∃ d ∈ entries, d.1 = e.1 := by
  have hkey : e.1 ∈ (h.putEntry k v entries).map Prod.fst := List.mem_map_of_mem he
  rw [keys_putEntry, List.mem_append, List.mem_map] at hkey
  rcases hkey with ⟨d, hd, heq⟩ | hkey
  · exact .inr ⟨d, hd, heq⟩
  · split at hkey
    · cases hkey
    · exact .inl (List.mem_singleton.mp hkey)

/-- What a key finds in a written map, seen from the heap before the writing. -/
theorem lookup?_setMap {h : Heap β} {id : Nat} (es entries : List (Value × Value)) {k : Value}
    (hk : ¬ h.LeadsTo id k) (hkeys : ∀ e ∈ entries, ¬ h.LeadsTo id e.1) :
    (h.setMap id es).lookup? entries k = h.lookup? entries k := by
  rw [lookup?, lookup?]
  refine congrArg (Option.map Prod.snd) (List.find?_congr fun e he => ?_)
  exact looselyEqual_setMap h es (hkeys e he) hk

end Heap

/-! ### Reading and writing members -/

namespace Machine

variable [Body β]

/-- `GET` of the key of the container puts the value on the stack, and changes nothing else. -/
def Gets (m : Machine β) (container key v : Value) : Prop :=
  ∀ stack operand, perform ⟨.getMember, operand⟩ { m with stack := key :: container :: stack } =
    .ok () { m with stack := v :: stack }

/-- `SET` of the key of the container to the value succeeds, and only changes the heap. -/
def Sets (m : Machine β) (container key v : Value) (h : Heap β) : Prop :=
  ∀ stack operand,
    perform ⟨.setMember, operand⟩ { m with stack := v :: key :: container :: stack } =
      .ok () { m with stack := container :: stack, heap := h }

theorem gets_of_get {m : Machine β} {container key v : Value}
    (h : m.heap.get container key = .ok v) : m.Gets container key v := by
  intro stack operand
  show (ofResult (m.heap.get container key) >>= push : Effect β Unit) { m with stack } = _
  rw [h]
  rfl

theorem writeMember_of_ok {m : Machine β} {container key v : Value} {h : Heap β}
    (hset : m.heap.set container key v = .ok h) :
    writeMember container key v m = .ok () { m with heap := h } := by
  show (ofResult (m.heap.set container key v) >>= fun heap => set { m with heap } :
    Effect β Unit) m = _
  rw [hset]
  rfl

theorem writeMember_of_error {m : Machine β} {container key v : Value} {f : Fault}
    (hset : m.heap.set container key v = .error f) :
    writeMember container key v m = .error (.fault f) m := by
  show (ofResult (m.heap.set container key v) >>= fun heap => set { m with heap } :
    Effect β Unit) m = _
  rw [hset]
  rfl

theorem perform_setMember (m : Machine β) (container key v : Value) (stack : List Value)
    (operand : Option Operand) :
    perform ⟨.setMember, operand⟩ { m with stack := v :: key :: container :: stack } =
      (writeMember container key v >>= fun _ => push container : Effect β Unit)
        { m with stack } := rfl

theorem sets_of_set {m : Machine β} {container key v : Value} {h : Heap β}
    (hset : m.heap.set container key v = .ok h) : m.Sets container key v h := by
  intro stack operand
  have hwrite : writeMember container key v { m with stack } = .ok () { m with stack, heap := h } :=
    writeMember_of_ok hset
  rw [perform_setMember, bind_of_ok hwrite]
  rfl

/-- A `SET` that fails leaves the heap as it was. -/
theorem heap_eq_of_setMember_error {m m' : Machine β} {operand : Option Operand} {e : Stop}
    (h : perform ⟨.setMember, operand⟩ m = .error e m') : m'.heap = m.heap := by
  have hm : ∀ stack, m.stack = stack → m = { m with stack } := by
    rintro _ rfl
    rfl
  match hstack : m.stack with
  | [] | [_] | [_, _] =>
    rw [hm _ hstack] at h
    cases h
    rfl
  | v :: key :: container :: rest =>
    rw [hm _ hstack, perform_setMember] at h
    cases hset : m.heap.set container key v with
    | ok h₁ =>
      have hwrite : writeMember container key v { m with stack := rest } = _ :=
        writeMember_of_ok hset
      rw [bind_of_ok hwrite] at h
      cases h
    | error f =>
      have hwrite : writeMember container key v { m with stack := rest } = _ :=
        writeMember_of_error hset
      rw [bind_of_error hwrite] at h
      cases h
      rfl

end Machine

/-! ### The laws of a store -/

open Heap Machine

/-- For a key that is loosely equal to itself, `SET` to a value on a map makes `GET` of the key put
the value.  Any key that is not loosely equal to that of the entry written gets what it got before.
There is one more entry if none was found for the key, and else as many; the keys of those that were
there stay where they are.  Neither of the two keys nor one in the map leads to the map.  A `SET`
that fails, on whatever container, leaves all containers as they were. -/
theorem map_entries_are_a_store [Body β] (m : Machine β) {id : Nat} (hid : id < m.heap.maps.size)
    {k : Value} (v : Value) (hk : m.heap.looselyEqual k k = true) (hlead : ¬ m.heap.LeadsTo id k)
    (hkeys : ∀ e ∈ m.heap.map id, ¬ m.heap.LeadsTo id e.1) :
    (∃ h : Heap β, m.Sets (.map id) k v h ∧ Gets { m with heap := h } (.map id) k v ∧
      (∀ k₂, ¬ m.heap.LeadsTo id k₂ →
        m.heap.looselyEqual (m.heap.writtenKey k (m.heap.map id)) k₂ = false →
        ∃ w, m.Gets (.map id) k₂ w ∧ Gets { m with heap := h } (.map id) k₂ w) ∧
      ((h.map id).length = (m.heap.map id).length + 1 ↔
        ∀ e ∈ m.heap.map id, m.heap.looselyEqual e.1 k = false) ∧
      ((h.map id).length = (m.heap.map id).length ↔
        ∃ e ∈ m.heap.map id, m.heap.looselyEqual e.1 k = true) ∧
      (m.heap.map id).map Prod.fst <+: (h.map id).map Prod.fst) ∧
    ∀ (m₁ m₂ : Machine β) (operand : Option Operand) (e : Stop),
      perform ⟨.setMember, operand⟩ m₁ = .error e m₂ → m₂.heap = m₁.heap := by
  generalize hentries : m.heap.map id = entries at hkeys
  let h := m.heap.setMap id (m.heap.putEntry k v entries)
  have hmap : h.map id = m.heap.putEntry k v entries := map_setMap hid _
  have hwritten : ∀ e ∈ m.heap.putEntry k v entries, ¬ m.heap.LeadsTo id e.1 := by
    intro e he
    rcases mem_keys_putEntry he with hkey | ⟨d, hd, hkey⟩
    · rwa [hkey]
    · exact hkey ▸ hkeys d hd
  have hget : ∀ k₂, ¬ m.heap.LeadsTo id k₂ → h.get (.map id) k₂ =
      .ok ((m.heap.lookup? (m.heap.putEntry k v entries) k₂).getD .null) := by
    intro k₂ hk₂
    show Except.ok ((h.lookup? (h.map id) k₂).getD .null) = _
    rw [hmap, lookup?_setMap _ _ hk₂ hwritten]
  have hanswers : m.heap.answers k entries = false ↔
      ∀ e ∈ entries, m.heap.looselyEqual e.1 k = false := by
    simp [answers]
  refine ⟨⟨h, sets_of_set ?_, gets_of_get ?_, fun k₂ hk₂ hne => ?_, ?_, ?_, ?_⟩,
    fun _ _ _ _ => heap_eq_of_setMember_error⟩
  · show Except.ok (m.heap.setMap id (m.heap.putEntry k v (m.heap.map id))) = _
    rw [hentries]
  · rw [hget k hlead, lookup?_putEntry _ _ _ _ hk]
    rfl
  · refine ⟨(m.heap.lookup? entries k₂).getD .null, gets_of_get ?_, gets_of_get ?_⟩
    · show Except.ok ((m.heap.lookup? (m.heap.map id) k₂).getD .null) = _
      rw [hentries]
    · rw [hget k₂ hk₂, lookup?_putEntry_of_ne _ _ _ _ hne]
  · rw [hmap, length_putEntry, ← hanswers]
    cases m.heap.answers k entries <;> simp
  · have hfound : m.heap.answers k entries = true ↔
        ∃ e ∈ entries, m.heap.looselyEqual e.1 k = true := List.any_eq_true
    rw [hmap, length_putEntry, ← hfound]
    cases m.heap.answers k entries <;> simp
  · rw [hmap, keys_putEntry]
    exact List.prefix_append _ _

/-- A machine with a map whose keys are a list and a text. -/
def Machine.withMap : Machine :=
  { Machine.start 8 with
    heap := {
      lists := #[[.text "x"]]
      maps := #[[(.list 0, .null), (.text "a", .boolean true)]]
      functions := #[], classes := #[], objects := #[] } }

/-- The map is put into itself under a new key, and the old key `a` gets what it got. -/
theorem map_entries_are_a_store_itself :
    let m := Machine.withMap
    m.heap.looselyEqual (.text "b") (.text "b") = true ∧ ¬ m.heap.LeadsTo 0 (.text "b") ∧
      (∀ e ∈ m.heap.map 0, ¬ m.heap.LeadsTo 0 e.1) ∧
      ∃ h : Heap, m.Sets (.map 0) (.text "b") (.map 0) h ∧
        Gets { m with heap := h } (.map 0) (.text "b") (.map 0) ∧
        (∃ w, m.Gets (.map 0) (.text "a") w ∧ Gets { m with heap := h } (.map 0) (.text "a") w) ∧
        (h.map 0).length = 3 := by
  intro m
  have htext : ∀ s, ¬ m.heap.LeadsTo 0 (.text s) := nofun
  have hkeys : ∀ e ∈ m.heap.map 0, ¬ m.heap.LeadsTo 0 e.1 := by
    intro e he hlead
    rcases List.mem_cons.mp he with rfl | he
    · cases hlead with
      | item hv hlead =>
        obtain rfl := List.mem_singleton.mp hv
        exact htext _ hlead
    · obtain rfl := List.mem_singleton.mp he
      exact htext _ hlead
  have hequal : m.heap.looselyEqual (.text "b") (.text "b") = true := by decide
  have hid : 0 < m.heap.maps.size := by decide
  obtain ⟨⟨h, hset, hget, hother, hgrows, -, -⟩, -⟩ :=
    map_entries_are_a_store m hid (.map 0) hequal (htext _) hkeys
  refine ⟨hequal, htext _, hkeys, h, hset, hget, hother _ (htext _) (by decide),
    hgrows.mpr (by decide)⟩

end StackScript
