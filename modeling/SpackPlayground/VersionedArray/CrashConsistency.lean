import SpackPlayground.VersionedArray.Code

/-! No crash during `insert` loses a completed one. -/
namespace SpackPlayground.VersionedArray

open Library.LowerBound Library.Persistence Library.Transition

variable {Value : Type} {slots : Nat}

def index (copy : Fin 2) : UInt32 := if copy = 0 then 0 else 1

def other (copy : Fin 2) : Fin 2 := 1 - copy

@[simp] theorem copyAt_index (copy : Fin 2) : copyAt (index copy) = some copy := by
  decide +revert

@[simp] theorem one_sub_index (copy : Fin 2) : 1 - index copy = index (other copy) := by
  decide +revert

theorem other_ne (copy : Fin 2) : other copy ≠ copy := by
  decide +revert

def copyLocs (copy : Fin 2) : Set (Loc slots) := {l | inCopy copy l = true}

def Filled (image : Image Value slots) (copy : Fin 2) (xs : List Value) (k : Nat) : Prop :=
  ∀ i : Fin slots, i.val < k → xs[i.val]? = some (image (.entry copy i))

structure Stored (image : Image Value slots) (copy : Fin 2) (xs : List Value) : Prop where
  size : image (.size copy) = xs.length
  room : xs.length ≤ slots
  entries : Filled image copy xs xs.length

theorem Stored.contents_eq {image : Image Value slots} {copy : Fin 2} {xs : List Value}
    (hstored : Stored image copy xs) : contents image copy = xs := by
  have hroom := hstored.room
  unfold contents
  rw [hstored.size]
  apply List.ext_getElem
  · rw [List.length_take, List.length_ofFn]
    omega
  · intro i hi hxs
    have hentry := hstored.entries ⟨i, by omega⟩ hxs
    rw [List.getElem?_eq_getElem hxs, Option.some_inj] at hentry
    rw [List.getElem_take, List.getElem_ofFn, hentry]

theorem Stored.congr {image image' : Image Value slots} {copy : Fin 2} {xs : List Value}
    (hstored : Stored image copy xs) (hsame : ∀ l ∈ copyLocs copy, image' l = image l) :
    Stored image' copy xs where
  size := by
    rw [hsame (.size copy) (by simp [copyLocs, inCopy])]
    exact hstored.size
  room := hstored.room
  entries := by
    intro i hi
    rw [hsame (.entry copy i) (by simp [copyLocs, inCopy])]
    exact hstored.entries i hi

/-- The locals of the `insert` of `entry`, when the consistent copy holds `xs`. -/
def frameFor (order : StrictWeakOrder Value) (copy : Fin 2) (xs : List Value) (entry : Value) :
    Frame Value where
  entry := entry
  workingCopy := other copy
  consistentCopy := copy
  insertPosition := lowerBound order xs entry

/-- The value of an `insert` that is in the array, but has not returned. -/
def flipped : Pc Value → List Value
  | .persistCurrent entry => [entry]
  | _ => []

def Progress (order : StrictWeakOrder Value) (mem : Mem Value slots) (copy : Fin 2)
    (xs : List Value) : Pc Value → Prop
  | .idle => True
  | .copyFront frame i => ∃ entry, frame = frameFor order copy xs entry ∧ xs.length < slots ∧
      i ≤ lowerBound order xs entry ∧ Filled mem.view (other copy) (inserted order xs entry) i
  | .placeEntry frame => ∃ entry, frame = frameFor order copy xs entry ∧ xs.length < slots ∧
      Filled mem.view (other copy) (inserted order xs entry) (lowerBound order xs entry)
  | .copyBack frame i last => ∃ entry, frame = frameFor order copy xs entry ∧ xs.length < slots ∧
      last = xs.length ∧ lowerBound order xs entry ≤ i ∧ i ≤ last ∧
      Filled mem.view (other copy) (inserted order xs entry) (i + 1)
  | .setSize frame => ∃ entry, frame = frameFor order copy xs entry ∧ xs.length < slots ∧
      Filled mem.view (other copy) (inserted order xs entry) (xs.length + 1)
  | .persistCopy entry => Stored mem.view (other copy) (inserted order xs entry)
  | .flip entry | .persistCurrent entry => Stored mem.view (other copy) (inserted order xs entry) ∧
      mem.Durable (copyLocs (other copy))
  | .undefined => False

def Pointed (view medium : UInt32) (copy : Fin 2) : Pc Value → Prop
  | .persistCurrent _ => view = index (other copy) ∧
      (medium = index copy ∨ medium = index (other copy))
  | _ => view = index copy ∧ medium = index copy

theorem Pointed.evict {view medium medium' : UInt32} {copy : Fin 2} {pc : Pc Value}
    (hpointed : Pointed view medium copy pc) (hmedium : medium' = medium ∨ medium' = view) :
    Pointed view medium' copy pc := by
  cases pc
  case persistCurrent entry =>
    apply And.intro hpointed.1
    cases hmedium with
    | inl hold =>
        rw [hold]
        exact hpointed.2
    | inr hnew => exact .inr (hnew.trans hpointed.1)
  all_goals
    apply And.intro hpointed.1
    cases hmedium with
    | inl hold => exact hold.trans hpointed.2
    | inr hnew => exact hnew.trans hpointed.1

/-- `copy` holds `xs`: the completed inserts, and `kept` of those interrupted. -/
structure Holds (order : StrictWeakOrder Value) (s : State Value slots) (copy : Fin 2)
    (xs kept : List Value) : Prop where
  stored : Stored s.mem.view copy xs
  durable : s.mem.Durable (copyLocs copy)
  sorted : Sorted order xs
  sublist : kept.Sublist s.interrupted
  perm : xs.Perm (s.completed ++ kept)
  pointed : Pointed (s.mem.view .current) (s.mem.medium .current) copy s.pc
  progress : Progress order s.mem copy xs s.pc

section Steps

variable {order : StrictWeakOrder Value} {s s' : State Value slots} {copy : Fin 2}
  {xs kept : List Value}

theorem Holds.evict (hholds : Holds order s copy xs kept) {l : Loc slots} {x : Val Value l}
    (hcan : CanOccur s (.evict l x)) :
    Holds order { s with mem := s.mem.evict l x } copy xs kept where
  stored := hholds.stored
  durable := hholds.durable.evict hcan.1
  sorted := hholds.sorted
  sublist := hholds.sublist
  perm := hholds.perm
  pointed := by
    apply hholds.pointed.evict
    by_cases hcurrent : l = .current
    · subst hcurrent
      rw [Memory.medium_evict_self]
      exact .inr (hcan.2 rfl)
    · exact .inl (Memory.medium_evict_of_ne (Ne.symm hcurrent))
  progress := by
    have hprogress := hholds.progress
    cases hpc : s.pc <;> rw [hpc] at hprogress
    case flip entry => exact ⟨hprogress.1, hprogress.2.evict hcan.1⟩
    case persistCurrent entry => exact ⟨hprogress.1, hprogress.2.evict hcan.1⟩
    all_goals exact hprogress

theorem Holds.store (hholds : Holds order s copy xs kept) {l : Loc slots} (x : Val Value l)
    (hcopy : l ∉ copyLocs copy) (hcurrent : l ≠ .current) (pc : Pc Value)
    (hpointed : Pointed (s.mem.view .current) (s.mem.medium .current) copy pc)
    (hprogress : Progress order (s.mem.store l x) copy xs pc) :
    Holds order { s with mem := s.mem.store l x, pc := pc } copy xs kept where
  stored := by
    apply hholds.stored.congr
    intro other hother
    exact Memory.view_store_of_mem hother hcopy
  durable := hholds.durable.store hcopy
  sorted := hholds.sorted
  sublist := hholds.sublist
  perm := hholds.perm
  pointed := by
    rw [Memory.view_store_of_ne hcurrent.symm]
    exact hpointed
  progress := hprogress

theorem Holds.goto (hholds : Holds order s copy xs kept) (pc : Pc Value)
    (hpointed : Pointed (s.mem.view .current) (s.mem.medium .current) copy pc)
    (hprogress : Progress order s.mem copy xs pc) : Holds order { s with pc := pc } copy xs kept :=
  { hholds with
    pointed := hpointed
    progress := hprogress }

theorem Holds.here (hholds : Holds order s copy xs kept) {pc : Pc Value} (hpc : s.pc = pc) :
    Pointed (s.mem.view .current) (s.mem.medium .current) copy pc ∧
      Progress order s.mem copy xs pc :=
  hpc ▸ ⟨hholds.pointed, hholds.progress⟩

theorem Holds.begin (hholds : Holds order s copy xs kept) (hpc : s.pc = .idle)
    (hroom : s.mem.view (.size copy) ≠ slots) (entry : Value) :
    Holds order { s with pc := VersionedArray.begin order s.mem entry } copy xs kept := by
  obtain ⟨hpointed, -⟩ := hholds.here hpc
  have hsize := hholds.stored.size
  have hle := hholds.stored.room
  have hbegin : VersionedArray.begin order s.mem entry =
      .copyFront (frameFor order copy xs entry) 0 := by
    unfold VersionedArray.begin
    rw [hpointed.1, one_sub_index, copyAt_index, copyAt_index]
    simp only [hsize, hle, if_true, hholds.stored.contents_eq, frameFor]
  rw [hbegin]
  rw [hsize] at hroom
  apply hholds.goto (.copyFront _ 0) hpointed
  exact ⟨entry, rfl, Nat.lt_of_le_of_ne hle hroom, Nat.zero_le _,
    fun i hi => absurd hi (Nat.not_lt_zero _)⟩

theorem Filled.store {mem : Mem Value slots} {target : List Value} {k : Nat}
    (hfilled : Filled mem.view copy target k) {i : Fin slots} (hi : i.val = k) {x : Value}
    (hx : target[k]? = some x) :
    Filled (mem.store (.entry copy i) x).view copy target (k + 1) := by
  intro j hj
  by_cases heq : j = i
  · subst heq
    rw [Memory.view_store_self, hi, hx]
  · rw [Memory.view_store_of_ne (by simp [heq])]
    apply hfilled
    have hne : j.val ≠ i.val := fun h => heq (Fin.ext h)
    omega

theorem Holds.fill (hholds : Holds order s copy xs kept) {i : Nat} (hi : i < slots)
    {entry x : Value}
    (hfilled : Filled s.mem.view (other copy) (inserted order xs entry) i)
    (hx : (inserted order xs entry)[i]? = some x) (pc : Pc Value)
    (hpointed : Pointed (s.mem.view .current) (s.mem.medium .current) copy pc)
    (hprogress : Filled (s.mem.store (.entry (other copy) ⟨i, hi⟩) x).view (other copy)
        (inserted order xs entry) (i + 1) →
      Progress order (s.mem.store (.entry (other copy) ⟨i, hi⟩) x) copy xs pc) :
    Holds order { s with mem := s.mem.store (.entry (other copy) ⟨i, hi⟩) x, pc := pc } copy xs
      kept := by
  have hcopy : Loc.entry (other copy) ⟨i, hi⟩ ∉ copyLocs copy := by
    simp [copyLocs, inCopy, other_ne]
  exact hholds.store (l := .entry (other copy) ⟨i, hi⟩) x hcopy (by simp) pc hpointed
    (hprogress (hfilled.store rfl hx))

theorem copyEntry_eq {mem : Mem Value slots} {source target : Fin 2} {i j : Nat} (hi : i < slots)
    (hj : j < slots) : copyEntry mem source i target j =
      some (mem.store (.entry target ⟨j, hj⟩) (mem.view (.entry source ⟨i, hi⟩))) := by
  unfold copyEntry readEntry writeEntry
  simp only [dif_pos hi, dif_pos hj, Option.bind_eq_bind, Option.bind_some]

section Advance

variable {mem : Mem Value slots} {entry : Value} {i : Nat}

private theorem advance_copyFront (hi : i < lowerBound order xs entry) (hslot : i < slots) :
    advance mem (.copyFront (frameFor order copy xs entry) i) =
      some (mem.store (.entry (other copy) ⟨i, hslot⟩) (mem.view (.entry copy ⟨i, hslot⟩)),
        .copyFront (frameFor order copy xs entry) (i + 1)) := by
  have hfront : i < (frameFor order copy xs entry).insertPosition := hi
  unfold advance
  dsimp only
  rw [if_pos hfront, copyEntry_eq hslot hslot]
  rfl

private theorem advance_copyFront_end : advance mem
    (.copyFront (frameFor order copy xs entry) (lowerBound order xs entry)) =
      some (mem, .placeEntry (frameFor order copy xs entry)) :=
  if_neg (Nat.lt_irrefl _)

private theorem advance_placeEntry (hslot : lowerBound order xs entry < slots) :
    advance mem (.placeEntry (frameFor order copy xs entry)) =
      some (mem.store (.entry (other copy) ⟨lowerBound order xs entry, hslot⟩) entry,
        .copyBack (frameFor order copy xs entry) (lowerBound order xs entry)
          (mem.view (.size copy))) := by
  unfold advance writeEntry frameFor
  dsimp only
  rw [dif_pos hslot]
  rfl

private theorem advance_copyBack {last : Nat} (hi : i < last) (hslot : i < slots)
    (hnext : i + 1 < slots) :
    advance mem (.copyBack (frameFor order copy xs entry) i last) =
      some (mem.store (.entry (other copy) ⟨i + 1, hnext⟩) (mem.view (.entry copy ⟨i, hslot⟩)),
        .copyBack (frameFor order copy xs entry) (i + 1) last) := by
  unfold advance
  dsimp only
  rw [if_pos hi, copyEntry_eq hslot hnext]
  rfl

private theorem advance_copyBack_end : advance mem (.copyBack (frameFor order copy xs entry) i i) =
    some (mem, .setSize (frameFor order copy xs entry)) :=
  if_neg (Nat.lt_irrefl _)

end Advance

theorem orUndefined_ne_idle {next : Option (Mem Value slots)} {pc : Pc Value} (hpc : pc ≠ .idle) :
    (orUndefined next mem pc).2 ≠ .idle := by
  cases next with
  | none => simp [orUndefined]
  | some mem' => exact hpc

private theorem returned_eq {pc : Pc Value} {next : Mem Value slots × Pc Value}
    (hadvance : advance mem pc = some next) : returned pc next.2 = flipped pc := by
  have hgoes {pc' : Pc Value} (hne : pc' ≠ .idle) : returned pc pc' = [] := by
    cases pc' <;> first | rfl | exact absurd rfl hne
  cases pc with
  | idle | undefined => exact absurd hadvance (by simp [advance])
  | copyFront frame i | copyBack frame i last =>
      unfold advance at hadvance
      dsimp only at hadvance
      split at hadvance <;> cases hadvance
      · exact hgoes (orUndefined_ne_idle (by simp))
      · rfl
  | placeEntry frame =>
      cases hadvance
      exact hgoes (orUndefined_ne_idle (by simp))
  | persistCopy entry =>
      unfold advance at hadvance
      dsimp only at hadvance
      split at hadvance <;> cases hadvance <;> rfl
  | setSize frame | flip entry | persistCurrent entry =>
      cases hadvance
      rfl

def afterWork (s : State Value slots) (next : Mem Value slots × Pc Value) : State Value slots :=
  { s with mem := next.1, pc := next.2 }

theorem Holds.copyFront (hholds : Holds order s copy xs kept) {frame : Frame Value} {i : Nat}
    (hpc : s.pc = .copyFront frame i) : ∃ next, advance s.mem s.pc = some next ∧
      Holds order (afterWork s next) copy xs kept := by
  obtain ⟨hpointed, entry, rfl, hroom, hle, hfilled⟩ := hholds.here hpc
  rw [hpc]
  have hbound := lowerBound_le order xs entry
  rcases Nat.lt_or_eq_of_le hle with hi | rfl
  · have hslot : i < slots := by omega
    have hx := hholds.stored.entries ⟨i, hslot⟩ (Nat.lt_of_lt_of_le hi hbound)
    rw [← getElem?_inserted_of_lt hi] at hx
    refine ⟨_, advance_copyFront hi hslot, ?_⟩
    apply hholds.fill hslot hfilled hx (.copyFront _ (i + 1)) hpointed
    intro hfilled
    exact ⟨entry, rfl, hroom, hi, hfilled⟩
  · refine ⟨_, advance_copyFront_end, ?_⟩
    exact hholds.goto (.placeEntry _) hpointed ⟨entry, rfl, hroom, hfilled⟩

theorem Holds.placeEntry (hholds : Holds order s copy xs kept) {frame : Frame Value}
    (hpc : s.pc = .placeEntry frame) : ∃ next, advance s.mem s.pc = some next ∧
      Holds order (afterWork s next) copy xs kept := by
  obtain ⟨hpointed, entry, rfl, hroom, hfilled⟩ := hholds.here hpc
  rw [hpc]
  have hbound := lowerBound_le order xs entry
  have hslot : lowerBound order xs entry < slots := by omega
  refine ⟨_, advance_placeEntry hslot, ?_⟩
  apply hholds.fill hslot hfilled getElem?_inserted_self (.copyBack _ _ _) hpointed
  intro hfilled
  rw [hholds.stored.size]
  exact ⟨entry, rfl, hroom, rfl, Nat.le_refl _, hbound, hfilled⟩

theorem Holds.copyBack (hholds : Holds order s copy xs kept) {frame : Frame Value} {i last : Nat}
    (hpc : s.pc = .copyBack frame i last) : ∃ next, advance s.mem s.pc = some next ∧
      Holds order (afterWork s next) copy xs kept := by
  obtain ⟨hpointed, entry, rfl, hroom, hlast, hge, hle, hfilled⟩ := hholds.here hpc
  rw [hpc]
  rcases Nat.lt_or_eq_of_le hle with hi | rfl
  · have hslot : i < slots := by omega
    have hnext : i + 1 < slots := by omega
    have hx := hholds.stored.entries ⟨i, hslot⟩ (hlast ▸ hi)
    rw [← getElem?_inserted_succ hge] at hx
    refine ⟨_, advance_copyBack hi hslot hnext, ?_⟩
    apply hholds.fill hnext hfilled hx (.copyBack _ (i + 1) _) hpointed
    intro hfilled
    exact ⟨entry, rfl, hroom, hlast, Nat.le_succ_of_le hge, hi, hfilled⟩
  · refine ⟨_, advance_copyBack_end, ?_⟩
    rw [hlast] at hfilled
    exact hholds.goto (.setSize _) hpointed ⟨entry, rfl, hroom, hfilled⟩

theorem Holds.setSize (hholds : Holds order s copy xs kept) {frame : Frame Value}
    (hpc : s.pc = .setSize frame) : ∃ next, advance s.mem s.pc = some next ∧
      Holds order (afterWork s next) copy xs kept := by
  obtain ⟨hpointed, entry, rfl, hroom, hfilled⟩ := hholds.here hpc
  rw [hpc]
  have hcopy : Loc.size (other copy) ∉ (copyLocs copy : Set (Loc slots)) := by
    simp [copyLocs, inCopy, other_ne]
  refine ⟨_, rfl, ?_⟩
  apply hholds.store (l := .size (other copy)) _ hcopy (by simp) (.persistCopy entry) hpointed
  constructor
  · rw [Memory.view_store_self, length_inserted]
    exact congrArg (· + 1) hholds.stored.size
  · rw [length_inserted]
    exact hroom
  · intro i hi
    rw [length_inserted] at hi
    rw [Memory.view_store_of_ne (by simp)]
    exact hfilled i hi

theorem Holds.persistCopy (hholds : Holds order s copy xs kept) {entry : Value}
    (hpc : s.pc = .persistCopy entry) : ∃ next, advance s.mem s.pc = some next ∧
      Holds order (afterWork s next) copy xs kept := by
  obtain ⟨hpointed, hprogress⟩ := hholds.here hpc
  rw [hpc]
  have hadvance : advance s.mem (.persistCopy entry) =
      some (s.mem.persist (inCopy (other copy)), .flip entry) := by
    unfold advance
    rw [hpointed.1, one_sub_index, copyAt_index]
  refine ⟨_, hadvance, ?_⟩
  exact
    { stored := hholds.stored
      durable := hholds.durable.persist _
      sorted := hholds.sorted
      sublist := hholds.sublist
      perm := hholds.perm
      pointed := hpointed
      progress := ⟨hprogress, Memory.durable_persist fun _ hl => hl⟩ }

theorem current_notMem_copyLocs (copy : Fin 2) : .current ∉ (copyLocs copy : Set (Loc slots)) := by
  simp [copyLocs, inCopy]

theorem Holds.flip (hholds : Holds order s copy xs kept) {entry : Value}
    (hpc : s.pc = .flip entry) : ∃ next, advance s.mem s.pc = some next ∧
      Holds order (afterWork s next) copy xs kept := by
  obtain ⟨hpointed, hstored, hdurable⟩ := hholds.here hpc
  rw [hpc]
  have hview : ∀ target, ∀ l ∈ copyLocs target,
      (s.mem.store .current (1 - s.mem.view .current)).view l = s.mem.view l := by
    intro target l hl
    exact Memory.view_store_of_mem hl (current_notMem_copyLocs target)
  refine ⟨_, rfl, ?_⟩
  exact
    { stored := hholds.stored.congr (hview copy)
      durable := hholds.durable.store (current_notMem_copyLocs copy)
      sorted := hholds.sorted
      sublist := hholds.sublist
      perm := hholds.perm
      pointed := by
        apply And.intro _ (.inl hpointed.2)
        rw [← one_sub_index, ← hpointed.1]
        exact Memory.view_store_self
      progress := ⟨hstored.congr (hview (other copy)),
        hdurable.store (current_notMem_copyLocs (other copy))⟩ }

theorem Holds.perm_inserted (hholds : Holds order s copy xs kept) (entry : Value) :
    (inserted order xs entry).Perm (s.completed ++ [entry] ++ kept) := by
  apply (inserted_perm entry).trans
  apply (hholds.perm.cons entry).trans
  rw [List.append_assoc]
  exact List.perm_middle.symm

theorem Holds.complete (hholds : Holds order s copy xs kept) {entry : Value}
    (hpc : s.pc = .persistCurrent entry) : Holds order
      { s with
        mem := s.mem.persist fun l => l = .current
        pc := .idle
        completed := s.completed ++ [entry] } (other copy) (inserted order xs entry) kept := by
  obtain ⟨hpointed, hprogress⟩ := hholds.here hpc
  exact
    { stored := hprogress.1
      durable := hprogress.2.persist _
      sorted := hholds.sorted.inserted entry
      sublist := hholds.sublist
      perm := hholds.perm_inserted entry
      pointed := ⟨hpointed.1, (Memory.medium_persist (by simp)).trans hpointed.1⟩
      progress := trivial }

theorem holds_crash (hstored : Stored s.mem.view copy xs) (hdurable : s.mem.Durable (copyLocs copy))
    (hsorted : Sorted order xs) (hsublist : kept.Sublist (s.interrupted ++ s.pc.running))
    (hperm : xs.Perm (s.completed ++ kept)) (hpointed : s.mem.medium .current = index copy) :
    Holds order ⟨s.mem.crash, .idle, s.completed, s.interrupted ++ s.pc.running⟩ copy xs kept where
  stored := hstored.congr hdurable
  durable := fun _ _ => rfl
  sorted := hsorted
  sublist := hsublist
  perm := hperm
  pointed := ⟨hpointed, hpointed⟩
  progress := trivial

theorem Holds.crash (hholds : Holds order s copy xs kept) : ∃ copy xs kept,
    Holds order ⟨s.mem.crash, .idle, s.completed, s.interrupted ++ s.pc.running⟩ copy xs kept := by
  have hpointed := hholds.pointed
  have hprogress := hholds.progress
  have hdropped := hholds.sublist.trans (List.sublist_append_left s.interrupted s.pc.running)
  have hback : s.mem.medium .current = index copy → Holds order
      ⟨s.mem.crash, .idle, s.completed, s.interrupted ++ s.pc.running⟩ copy xs kept :=
    holds_crash hholds.stored hholds.durable hholds.sorted hdropped hholds.perm
  cases hpc : s.pc
  case persistCurrent entry =>
    rw [hpc] at hpointed hprogress
    rcases hpointed.2 with hold | hnew
    · exact ⟨copy, xs, kept, hpc ▸ hback hold⟩
    · refine ⟨other copy, inserted order xs entry, kept ++ [entry], hpc ▸ ?_⟩
      apply holds_crash hprogress.1 hprogress.2 (hholds.sorted.inserted entry) _ _ hnew
      · rw [hpc]
        exact hholds.sublist.append (List.Sublist.refl _)
      · apply (hholds.perm_inserted entry).trans
        rw [List.append_assoc]
        exact (List.perm_append_comm).append_left s.completed
  all_goals
    rw [hpc] at hpointed
    exact ⟨copy, xs, kept, hpc ▸ hback hpointed.2⟩

theorem Holds.work (hholds : Holds order s copy xs kept) (hstep : step order s .work = some s') :
    ∃ copy xs kept, Holds order s' copy xs kept := by
  obtain ⟨next, hadvance, rfl⟩ := Option.map_eq_some_iff.mp hstep
  rw [returned_eq hadvance]
  have hsame : flipped s.pc = [] → (∃ next, advance s.mem s.pc = some next ∧
      Holds order (afterWork s next) copy xs kept) → ∃ copy xs kept, Holds order
        { s with mem := next.1, pc := next.2, completed := s.completed ++ flipped s.pc }
        copy xs kept := by
    rintro hnone ⟨next', hadvance', hnext⟩
    rw [hadvance, Option.some_inj] at hadvance'
    subst hadvance'
    rw [hnone, List.append_nil]
    exact ⟨copy, xs, kept, hnext⟩
  cases hpc : s.pc with
  | idle | undefined =>
      rw [hpc] at hadvance
      exact absurd hadvance (by simp [advance])
  | persistCurrent entry =>
      rw [hpc] at hadvance
      cases hadvance
      exact ⟨other copy, inserted order xs entry, kept, hholds.complete hpc⟩
  | copyFront frame i => exact hpc ▸ hsame (by rw [hpc]; rfl) (hholds.copyFront hpc)
  | placeEntry frame => exact hpc ▸ hsame (by rw [hpc]; rfl) (hholds.placeEntry hpc)
  | copyBack frame i last => exact hpc ▸ hsame (by rw [hpc]; rfl) (hholds.copyBack hpc)
  | setSize frame => exact hpc ▸ hsame (by rw [hpc]; rfl) (hholds.setSize hpc)
  | persistCopy entry => exact hpc ▸ hsame (by rw [hpc]; rfl) (hholds.persistCopy hpc)
  | flip entry => exact hpc ▸ hsame (by rw [hpc]; rfl) (hholds.flip hpc)

private theorem step_insert {entry : Value} (hstep : step order s (.insert entry) = some s') :
    s.pc = .idle ∧ s' = { s with pc := begin order s.mem entry } := by
  cases hpc : s.pc <;> simp only [step, hpc] at hstep
  case idle =>
    cases hstep
    exact ⟨rfl, rfl⟩
  all_goals exact absurd hstep (by simp)

theorem Holds.next (hholds : Holds order s copy xs kept) {action : Action Value slots}
    (hroom : HasRoom s action) (hcan : CanOccur s action)
    (hstep : step order s action = some s') :
    ∃ copy xs kept, Holds order s' copy xs kept := by
  cases action with
  | insert entry =>
      obtain ⟨hpc, rfl⟩ := step_insert hstep
      obtain ⟨hpointed, -⟩ := hholds.here hpc
      have hroom := hroom copy (hpointed.1 ▸ copyAt_index copy)
      exact ⟨copy, xs, kept, hholds.begin hpc hroom entry⟩
  | work => exact hholds.work hstep
  | evict l x =>
      cases hstep
      exact ⟨copy, xs, kept, hholds.evict hcan⟩
  | crash =>
      cases hstep
      exact hholds.crash

private theorem holds_init (order : StrictWeakOrder Value) (slots : Nat) (zero : Value) :
    Holds order (⟨⟨zeroed zero, zeroed zero⟩, .idle, [], []⟩ : State Value slots) 0 [] [] where
  stored := ⟨rfl, Nat.zero_le _, fun _ hi => absurd hi (Nat.not_lt_zero _)⟩
  durable := fun _ _ => rfl
  sorted := List.Pairwise.nil
  sublist := List.Sublist.refl _
  perm := List.Perm.refl _
  pointed := ⟨rfl, rfl⟩
  progress := trivial

theorem holds_of_reachable {zero : Value}
    (hs : ((machine order slots zero).restrict HasRoom).Reachable s) :
    ∃ copy xs kept, Holds order s copy xs kept := by
  apply hs.invariant (motive := fun s => ∃ copy xs kept, Holds order s copy xs kept)
  · rintro s rfl
    exact ⟨0, [], [], holds_init order slots zero⟩
  · rintro s action t - ⟨copy, xs, kept, hholds⟩ ⟨hroom, hcan, hstep⟩
    exact hholds.next hroom hcan hstep

end Steps

section Frames

variable {mem mem' : Mem Value slots} {l : Loc slots}

theorem view_writeEntry {target : Fin 2} {i : Nat} {x : Value} (hl : inCopy target l = false)
    (hwrite : writeEntry mem target i x = some mem') : mem'.view l = mem.view l := by
  unfold writeEntry at hwrite
  split at hwrite
  · cases hwrite
    apply Memory.view_store_of_ne
    rintro rfl
    simp [inCopy] at hl
  · exact absurd hwrite (by simp)

theorem view_copyEntry {source target : Fin 2} {i j : Nat} (hl : inCopy target l = false)
    (hcopy : copyEntry mem source i target j = some mem') : mem'.view l = mem.view l := by
  obtain ⟨x, -, hwrite⟩ := Option.bind_eq_some_iff.mp hcopy
  exact view_writeEntry hl hwrite

theorem view_orUndefined {next : Option (Mem Value slots)} {pc : Pc Value}
    (hnext : ∀ mem', next = some mem' → mem'.view l = mem.view l) :
    (orUndefined next mem pc).1.view l = mem.view l := by
  cases next with
  | none => rfl
  | some mem' => exact hnext mem' rfl

def Pc.frame? : Pc Value → Option (Frame Value)
  | .copyFront frame _ | .placeEntry frame | .copyBack frame .. | .setSize frame => some frame
  | .idle | .persistCopy _ | .flip _ | .persistCurrent _ | .undefined => none

private theorem view_advance {pc : Pc Value} {next : Mem Value slots × Pc Value}
    (hadvance : advance mem pc = some next) (hcurrent : l ≠ .current)
    (hl : ∀ frame, pc.frame? = some frame → inCopy frame.workingCopy l = false) :
    next.1.view l = mem.view l := by
  cases pc with
  | idle | undefined => exact absurd hadvance (by simp [advance])
  | copyFront frame i =>
      unfold advance at hadvance
      dsimp only at hadvance
      split at hadvance <;> cases hadvance
      · exact view_orUndefined fun _ => view_copyEntry (hl frame rfl)
      · rfl
  | placeEntry frame =>
      cases hadvance
      exact view_orUndefined fun _ => view_writeEntry (hl frame rfl)
  | copyBack frame i last =>
      unfold advance at hadvance
      dsimp only at hadvance
      split at hadvance <;> cases hadvance
      · exact view_orUndefined fun _ => view_copyEntry (hl frame rfl)
      · rfl
  | setSize frame =>
      cases hadvance
      apply Memory.view_store_of_ne
      rintro rfl
      exact absurd (hl frame rfl) (by simp [inCopy])
  | persistCopy entry =>
      unfold advance at hadvance
      dsimp only at hadvance
      split at hadvance <;> cases hadvance <;> rfl
  | flip entry =>
      cases hadvance
      exact Memory.view_store_of_ne hcurrent
  | persistCurrent entry =>
      cases hadvance
      rfl

end Frames

theorem Progress.frame {order : StrictWeakOrder Value} {mem : Mem Value slots} {copy : Fin 2}
    {xs : List Value} {pc : Pc Value} (hprogress : Progress order mem copy xs pc)
    {frame : Frame Value} (hframe : pc.frame? = some frame) : frame.workingCopy = other copy := by
  cases pc <;> cases hframe
  all_goals
    obtain ⟨entry, rfl, -⟩ := hprogress
    rfl

theorem Holds.current {order : StrictWeakOrder Value} {s : State Value slots} {copy : Fin 2}
    {xs kept : List Value} (hholds : Holds order s copy xs kept) : ∃ target ys,
      s.mem.view .current = index target ∧ Stored s.mem.view target ys ∧ Sorted order ys ∧
      ys.Perm (s.completed ++ flipped s.pc ++ kept) := by
  have hpointed := hholds.pointed
  have hprogress := hholds.progress
  cases hpc : s.pc <;> rw [hpc] at hpointed hprogress
  case persistCurrent entry =>
    exact ⟨other copy, inserted order xs entry, hpointed.1, hprogress.1,
      hholds.sorted.inserted entry, hholds.perm_inserted entry⟩
  all_goals
    refine ⟨copy, xs, hpointed.1, hholds.stored, hholds.sorted, ?_⟩
    rw [show flipped _ = [] from rfl, List.append_nil]
    exact hholds.perm

theorem index_injective {copy target : Fin 2} (heq : index copy = index target) :
    copy = target := by
  revert copy target
  decide

theorem Holds.view_work {order : StrictWeakOrder Value} {s s' : State Value slots} {copy : Fin 2}
    {xs kept : List Value} (hholds : Holds order s copy xs kept)
    (hstep : step order s .work = some s') {target : Fin 2}
    (htarget : s.mem.view .current = index target) {l : Loc slots} (hl : inCopy target l = true) :
    s'.mem.view l = s.mem.view l := by
  obtain ⟨next, hadvance, rfl⟩ := Option.map_eq_some_iff.mp hstep
  apply view_advance hadvance
  · rintro rfl
    exact absurd hl (by simp [inCopy])
  · intro frame hframe
    have hworking := hholds.progress.frame hframe
    have hpointed := hholds.pointed
    have hcopy : target = copy := by
      apply index_injective
      rw [← htarget]
      cases hpc : s.pc <;> rw [hpc] at hframe hpointed
      case persistCurrent entry => exact absurd hframe (by simp [Pc.frame?])
      all_goals exact hpointed.1
    subst hcopy
    rw [hworking]
    cases l with
    | current => rfl
    | entry owner i | size owner =>
        have howner : owner = target := of_decide_eq_true hl
        exact decide_eq_false (howner ▸ (other_ne target).symm)

/-- Every run of inserts and crashes leaves a sorted array of what was completed,
and nothing the array holds is stored to. -/
theorem crash_consistent (order : StrictWeakOrder Value) (slots : Nat) (zero : Value)
    {s : State Value slots} (hs : ((machine order slots zero).restrict HasRoom).Reachable s) :
    ∃ copy, s.mem.view .current = index copy ∧
      s.mem.view (.size copy) ≤ slots ∧
      Sorted order (contents s.mem.view copy) ∧
      (∃ kept, kept.Sublist s.interrupted ∧
        (contents s.mem.view copy).Perm (s.completed ++ flipped s.pc ++ kept)) ∧
      s.pc ≠ .undefined ∧
      ∀ s', step order s .work = some s' → ∀ l, inCopy copy l = true →
        s'.mem.view l = s.mem.view l := by
  obtain ⟨copy, xs, kept, hholds⟩ := holds_of_reachable hs
  obtain ⟨target, ys, htarget, hstored, hsorted, hperm⟩ := hholds.current
  have hprogress := hholds.progress
  refine ⟨target, htarget, ?_, ?_, ⟨kept, hholds.sublist, ?_⟩, ?_, ?_⟩
  · rw [hstored.size]
    exact hstored.room
  · rwa [hstored.contents_eq]
  · rwa [hstored.contents_eq]
  · intro hpc
    rw [hpc] at hprogress
    exact hprogress
  · intro s' hstep l hl
    exact hholds.view_work hstep htarget hl

def natOrder : StrictWeakOrder Nat where
  less a b := decide (a < b)
  irrefl a := by simp
  trans a b c := by
    simp only [decide_eq_true_eq]
    omega
  incomparable a b c := by
    simp only [decide_eq_false_iff_not]
    omega

instance (s : State Nat slots) (action : Action Nat slots) :
    Decidable (HasRoom s action ∧ CanOccur s action) := by
  cases action with
  | evict l x => cases l <;> unfold HasRoom CanOccur Memory.Evictable <;> infer_instance
  | insert entry | work | crash => unfold HasRoom CanOccur; infer_instance

/-- The third `insert` is cut off when its store to `current` has reached the medium. -/
def interruptedRun : List (Action Nat 3) :=
  .insert 5 :: List.replicate 7 .work ++ .insert 3 :: List.replicate 8 .work ++
    .insert 4 :: List.replicate 8 .work ++ [.evict .current 1, .crash]

theorem crash_consistent_interrupted : ∃ s,
    ((machine natOrder 3 0).restrict HasRoom).Reachable s ∧
    s.completed = [5, 3] ∧ s.interrupted = [4] ∧ contents s.mem.view 1 = [3, 4, 5] ∧
    ∃ copy, s.mem.view .current = index copy ∧ Sorted natOrder (contents s.mem.view copy) ∧
      ∃ kept, kept.Sublist [4] ∧ (contents s.mem.view copy).Perm ([5, 3] ++ kept) := by
  obtain ⟨s, hexecute, hpc, hcompleted, hinterrupted, hcontents⟩ : ∃ s,
      System.execute (fun s action =>
          if HasRoom s action ∧ CanOccur s action then step natOrder s action else none)
        ⟨⟨zeroed 0, zeroed 0⟩, .idle, [], []⟩ interruptedRun = some s ∧
      s.pc = .idle ∧ s.completed = [5, 3] ∧ s.interrupted = [4] ∧
      contents s.mem.view 1 = [3, 4, 5] :=
    ⟨_, rfl, rfl, rfl, rfl, rfl⟩
  have hs : ((machine natOrder 3 0).restrict HasRoom).Reachable s := by
    refine ⟨_, _, rfl, System.run_of_execute (fun s action t hnext => ?_) hexecute⟩
    obtain ⟨⟨hroom, hcan⟩, hstep⟩ := Option.ite_none_right_eq_some.mp hnext
    exact ⟨hroom, hcan, hstep⟩
  obtain ⟨copy, hcurrent, -, hsorted, ⟨kept, hsublist, hperm⟩, -⟩ :=
    crash_consistent natOrder 3 0 hs
  rw [hcompleted, hpc] at hperm
  rw [hinterrupted] at hsublist
  exact ⟨s, hs, hcompleted, hinterrupted, hcontents, copy, hcurrent, hsorted, kept, hsublist,
    hperm⟩

end SpackPlayground.VersionedArray
