import Mathlib.Data.Nat.Find
import SpackPlayground.WriterReader.Code

/-! What the reader makes of the root object when the writer was cut off: the length is
in persistent memory before the first character is, and tells whether the last one is. -/
namespace SpackPlayground.WriterReader

open Library.CrashHoare Library.Persistence

def Complete (text : List Char) (image : Image) : Prop :=
  image .len = .ofNat text.length ∧ ∀ i c, text[i]? = some c → image (.char i) = c

/-- What can be in persistent memory when the writer is cut off. -/
structure Torn (text : List Char) (image : Image) : Prop where
  len : image .len = 0 ∨ image .len = .ofNat text.length
  char : ∀ i, image (.char i) = nul ∨ text[i]? = some (image (.char i))
  order : image .len = 0 → ∀ i, image (.char i) = nul

section Reader

variable {image : Image} {text : List Char} {n : Nat}

theorem length_buf : (buf image).length = maxBufLen := by
  unfold buf
  rw [List.length_map, List.length_range]

theorem getElem_buf {i : Nat} (hi : i < (buf image).length) :
    (buf image)[i] = image (.char i) := by
  rw [List.getElem_eq_iff]
  unfold buf
  rw [List.getElem?_map, List.getElem?_range (hi.trans_eq length_buf)]
  rfl

theorem strlen_buf (hn : n < maxBufLen) (hend : image (.char n) = nul)
    (hchars : ∀ i < n, image (.char i) ≠ nul) : strlen (buf image) = some n := by
  apply List.findIdx?_eq_some_iff_getElem.mpr
  refine ⟨hn.trans_eq length_buf.symm, ?_, fun j hj => ?_⟩
  · rw [getElem_buf, decide_eq_true_iff]
    exact hend
  · rw [getElem_buf, decide_eq_true_iff]
    exact hchars j hj

theorem toNat_ofNat_length (hfits : text.length < maxBufLen) :
    (UInt64.ofNat text.length).toNat = text.length :=
  UInt64.toNat_ofNat_of_lt' (hfits.trans (by decide))

private theorem take_buf (hfits : text.length < maxBufLen) (hcomplete : Complete text image) :
    (buf image).take text.length = text := by
  apply List.ext_getElem
  · rw [List.length_take, length_buf, Nat.min_eq_left hfits.le]
  · intro i _ hi
    rw [List.getElem_take, getElem_buf]
    exact hcomplete.2 i text[i] (List.getElem?_eq_getElem hi)

private theorem reader_of_len_eq_zero (htorn : Torn text image) (hzero : image .len = 0) :
    reader image = .printed ['\n'] := by
  have hstrlen : strlen (buf image) = some 0 :=
    strlen_buf (by decide) (htorn.order hzero 0) fun i hi => absurd hi (Nat.not_lt_zero i)
  simp only [reader, hstrlen, hzero]
  rfl

private theorem reader_of_complete (hnul : nul ∉ text) (hfits : text.length < maxBufLen)
    (htorn : Torn text image) (hcomplete : Complete text image) :
    reader image = .printed (text ++ ['\n']) := by
  have hend : image (.char text.length) = nul := by
    cases htorn.char text.length with
    | inl hchar => exact hchar
    | inr hchar => simp at hchar
  have hchars : ∀ i < text.length, image (.char i) ≠ nul := by
    intro i hi heq
    rw [hcomplete.2 i text[i] (List.getElem?_eq_getElem hi)] at heq
    exact hnul (heq ▸ List.getElem_mem hi)
  simp only [reader, strlen_buf hfits hend hchars, hcomplete.1, toNat_ofNat_length hfits, if_true,
    take_buf hfits hcomplete]

private theorem reader_of_not_complete (hfits : text.length < maxBufLen) (htorn : Torn text image)
    (hlen : image .len = .ofNat text.length) (hnot : ¬ Complete text image) :
    reader image = .silent := by
  have hmissing : ∃ i, i < text.length ∧ image (.char i) = nul := by
    by_contra hall
    refine hnot ⟨hlen, fun i c hc => ?_⟩
    have hi := (List.getElem?_eq_some_iff.mp hc).1
    have hchar := (htorn.char i).resolve_left fun heq => hall ⟨i, hi, heq⟩
    exact Option.some_inj.mp (hchar.symm.trans hc)
  classical
  have hspec := Nat.find_spec hmissing
  have hmin : ∀ i < Nat.find hmissing, image (.char i) ≠ nul := fun i hi heq =>
    Nat.find_min hmissing hi ⟨hi.trans hspec.1, heq⟩
  have hstrlen := strlen_buf (hspec.1.trans hfits) hspec.2 hmin
  simp only [reader, hstrlen, hlen, toNat_ofNat_length hfits, if_neg hspec.1.ne']

end Reader

section Writer

variable {text : List Char} {i : Nat} {p p' : Pipeline Val}

structure Stored (text : List Char) (i : Nat) (p : Pipeline Val) : Prop where
  view_len : p.view .len = .ofNat text.length
  len : p.medium .len = 0 ∨ p.medium .len = .ofNat text.length
  view_char : ∀ j, p.view (.char j) = (text.take i)[j]?.getD nul
  char : ∀ j, p.medium (.char j) = nul ∨ p.medium (.char j) = p.view (.char j)

theorem evict_of_drift (hdrift : machine.drift p p') : ∃ l, p' = p.evict l (p.view l) := by
  obtain ⟨l, x, hx, heq⟩ := hdrift
  cases hx
  exact ⟨l, heq⟩

theorem medium_evict (p : Pipeline Val) (l other : Loc) :
    (p.evict l (p.view l)).medium other = p.medium other ∨
      (p.evict l (p.view l)).medium other = p.view other := by
  by_cases heq : other = l
  · subst heq
    exact .inr Memory.medium_evict_self
  · exact .inl (Memory.medium_evict_of_ne heq)

theorem Stored.drift (hstored : Stored text i p) (hdrift : machine.drift p p') :
    Stored text i p' := by
  obtain ⟨l, rfl⟩ := evict_of_drift hdrift
  refine ⟨hstored.view_len, ?_, hstored.view_char, fun j => ?_⟩
  · cases medium_evict p l .len with
    | inl hmedium =>
        rw [hmedium]
        exact hstored.len
    | inr hview => exact .inr (hview.trans hstored.view_len)
  · cases medium_evict p l (.char j) with
    | inl hmedium =>
        rw [hmedium]
        exact hstored.char j
    | inr hview => exact .inr hview

theorem Stored.torn (hfits : text.length < maxBufLen) (hstored : Stored text i p)
    (horder : i = 0 ∨ p.Durable {.len}) : Torn text p.medium := by
  refine ⟨hstored.len, fun j => ?_, fun hzero j => ?_⟩
  · cases hstored.char j with
    | inl hnul => exact .inl hnul
    | inr hview =>
        rw [hstored.view_char] at hview
        cases htaken : (text.take i)[j]? with
        | none =>
            rw [htaken] at hview
            exact .inl hview
        | some c =>
            rw [htaken] at hview
            rw [hview]
            rw [List.getElem?_take] at htaken
            exact .inr (Option.ite_none_right_eq_some.mp htaken).2
  · have hempty : text.take i = [] := by
      cases horder with
      | inl hi => rw [hi, List.take_zero]
      | inr hlen =>
          have hview : UInt64.ofNat text.length = 0 :=
            hstored.view_len.symm.trans ((hlen .len rfl).symm.trans hzero)
          have hlength := congrArg UInt64.toNat hview
          rw [toNat_ofNat_length hfits] at hlength
          rw [List.eq_nil_of_length_eq_zero hlength, List.take_nil]
    have hview := hstored.view_char j
    rw [hempty] at hview
    cases hstored.char j with
    | inl hnul => exact hnul
    | inr hsame => exact hsame.trans hview

structure Copying (text : List Char) (i : Nat) (p : Pipeline Val) : Prop where
  stored : Stored text i p
  len : p.Durable {.len}

def Cut (text : List Char) (p : Pipeline Val) : Prop := Torn text p.medium

theorem stable_copying : Stable machine (Copying text i) := by
  intro p p' hcopying hdrift
  exact ⟨hcopying.stored.drift hdrift, Evicts.durable hdrift hcopying.len⟩

theorem Copying.cut (hfits : text.length < maxBufLen) (hcopying : Copying text i p) :
    Cut text p :=
  hcopying.stored.torn hfits (.inr hcopying.len)

theorem Copying.store {c : Char} (hcopying : Copying text i p) (hc : text[i]? = some c) :
    Copying text (i + 1) (p.store (.char i) c) := by
  have hne (j : Nat) (hj : j ≠ i) : (p.store (.char i) c).view (.char j) = p.view (.char j) :=
    Memory.view_store_of_ne fun heq => hj (Loc.char.inj heq)
  have hself : (p.store (.char i) c).view (.char i) = c := Memory.view_store_self
  refine ⟨⟨hcopying.stored.view_len, hcopying.stored.len, fun j => ?_, fun j => ?_⟩, ?_⟩
  · by_cases hj : j = i
    · subst hj
      rw [hself, List.getElem?_take_of_succ, hc]
      rfl
    · have hlt : j < i + 1 ↔ j < i := by omega
      rw [hne j hj, hcopying.stored.view_char j, List.getElem?_take, List.getElem?_take]
      simp only [hlt]
  · by_cases hj : j = i
    · subst hj
      have hold : p.view (.char j) = nul := by
        rw [hcopying.stored.view_char j, List.getElem?_take, if_neg (Nat.lt_irrefl j)]
        rfl
      exact .inl ((hcopying.stored.char j).elim id fun hview => hview.trans hold)
    · rw [hne j hj]
      exact hcopying.stored.char j
  · exact hcopying.len.store fun hmem : Loc.char i = .len => by cases hmem

theorem copy_triple (hfits : text.length < maxBufLen) {α : Type} {next : Prog (Cmd Val) α}
    {post : α → Pipeline Val → Prop}
    (hnext : Triple machine (Copying text text.length) next post (Cut text)) {rest : List Char}
    (hrest : text.drop i = rest) :
    Triple machine (Copying text i) (copy next i rest) post (Cut text) := by
  induction rest generalizing i with
  | nil =>
      have htake : text.take i = text.take text.length := by
        rw [List.take_length, List.take_of_length_le (List.drop_eq_nil_iff.mp hrest)]
      refine hnext.mono (fun p hcopying => ?_) (fun _ _ => id) fun _ => id
      refine ⟨{ hcopying.stored with view_char := fun j => ?_ }, hcopying.len⟩
      rw [← htake]
      exact hcopying.stored.view_char j
  | cons c rest ih =>
      have hc : text[i]? = some c := by
        have hhead : (text.drop i)[0]? = text[i + 0]? := List.getElem?_drop
        rw [hrest] at hhead
        exact hhead.symm
      have htail : text.drop (i + 1) = rest := by rw [← List.tail_drop, hrest, List.tail_cons]
      refine .call _ stable_copying (fun _ => Copying.cut hfits) (fun p _ p' hcopying hexec => ?_)
        fun _ => ih htail
      cases hexec
      exact hcopying.store hc

theorem persist_triple {α : Type} {range : Loc → Bool} {next : Prog (Cmd Val) α}
    {pre : Pipeline Val → Prop} {post : α → Pipeline Val → Prop} (hstable : Stable machine pre)
    (hcut : ∀ p, pre p → Cut text p) (hflush : ∀ p range, pre p → pre (p.flush range))
    (hdrain : ∀ p, pre p → pre p.drain)
    (hnext : Triple machine (fun p => pre p ∧ p.Durable {l | range l = true}) next post
      (Cut text)) :
    Triple machine pre (persist range next) post (Cut text) := by
  refine .call (fun _ p => pre p ∧ p.Safe {l | range l = true}) hstable hcut
    (fun p _ p' hpre hexec => ?_) fun _ => .call
      (fun _ p => pre p ∧ p.Durable {l | range l = true}) (fun p p' hpre hdrift => ?_)
      (fun p hpre => hcut p hpre.1) (fun p _ p' hpre hexec => ?_) fun _ => hnext
  · cases hexec
    exact ⟨hflush p range hpre, Pipeline.safe_flush fun _ => id⟩
  · exact ⟨hstable p p' hpre.1 hdrift, Evicts.safe hdrift hpre.2⟩
  · cases hexec
    exact ⟨hdrain p hpre.1, hpre.2.drain⟩

theorem Stored.flush (hstored : Stored text i p) (range : Loc → Bool) :
    Stored text i (p.flush range) :=
  ⟨hstored.view_len, hstored.len, hstored.view_char, hstored.char⟩

theorem Stored.drain (hstored : Stored text i p) : Stored text i p.drain := by
  refine ⟨hstored.view_len, ?_, hstored.view_char, fun j => ?_⟩
  · change (if p.flushed .len then p.view .len else p.medium .len) = 0 ∨
      (if p.flushed .len then p.view .len else p.medium .len) = .ofNat text.length
    split
    · exact .inr hstored.view_len
    · exact hstored.len
  · change (if p.flushed (.char j) then p.view (.char j) else p.medium (.char j)) = nul ∨
      (if p.flushed (.char j) then p.view (.char j) else p.medium (.char j)) = p.view (.char j)
    split
    · exact .inr rfl
    · exact hstored.char j

private theorem stable_stored : Stable machine (Stored text i) := fun _ _ => Stored.drift

theorem Copying.flush (hcopying : Copying text i p) (range : Loc → Bool) :
    Copying text i (p.flush range) :=
  ⟨hcopying.stored.flush range, hcopying.len⟩

theorem Copying.drain (hcopying : Copying text i p) : Copying text i p.drain :=
  ⟨hcopying.stored.drain, Pipeline.durable_drain hcopying.len⟩

theorem Copying.complete (hcopying : Copying text text.length p)
    (hchars : p.Durable {l | l.InBuf text.length = true}) : Complete text p.medium := by
  refine ⟨(hcopying.len .len rfl).trans hcopying.stored.view_len, fun i c hc => ?_⟩
  have hi := (List.getElem?_eq_some_iff.mp hc).1
  have hdurable : p.medium (.char i) = p.view (.char i) := hchars _ (decide_eq_true hi)
  rw [hdurable, hcopying.stored.view_char i, List.take_length, hc]
  rfl

private theorem stored_created {p : Pipeline Val} (hview : p.view = zeroed)
    (hmedium : p.medium = zeroed) :
    Stored text 0 (p.store .len (.ofNat text.length)) := by
  have hchar (j : Nat) : (p.store .len (.ofNat text.length)).view (.char j) = nul := by
    have hne : (p.store .len (.ofNat text.length)).view (.char j) = p.view (.char j) :=
      Memory.view_store_of_ne (by simp)
    exact hne.trans (by rw [hview]; rfl)
  refine ⟨Memory.view_store_self, .inl ?_, hchar, fun j => .inl ?_⟩
  · change p.medium .len = 0
    rw [hmedium]
    rfl
  · change p.medium (.char j) = nul
    rw [hmedium]
    rfl

private theorem torn_zeroed : Torn text zeroed := ⟨.inl rfl, fun _ => .inl rfl, fun _ _ => rfl⟩

private theorem stable_zeroed : Stable machine fun p => p.view = zeroed ∧ p.medium = zeroed := by
  intro p p' hpre hdrift
  obtain ⟨l, rfl⟩ := evict_of_drift hdrift
  refine ⟨hpre.1, ?_⟩
  funext other
  cases medium_evict p l other with
  | inl hmedium => exact hmedium.trans (congrFun hpre.2 other)
  | inr hview => exact hview.trans (congrFun hpre.1 other)

theorem writer_triple (hfits : text.length < maxBufLen) :
    Triple machine (fun p => p.view = zeroed ∧ p.medium = zeroed) (writer text)
      (fun _ p => Complete text p.medium) (Cut text) := by
  have hlast : Triple machine (Copying text text.length)
      (persist (Loc.InBuf text.length) (.done ())) (fun _ p => Complete text p.medium)
      (Cut text) := by
    refine persist_triple stable_copying (fun _ => Copying.cut hfits)
      (fun _ range hcopying => hcopying.flush range) (fun _ => Copying.drain)
      (.done (fun p p' hpre hdrift => ?_) (fun p hpre => hpre.1.cut hfits)
        fun p hpre => hpre.1.complete hpre.2)
    exact ⟨stable_copying p p' hpre.1 hdrift, Evicts.durable hdrift hpre.2⟩
  have hcopy : Triple machine (fun p => Stored text 0 p ∧ p.Durable {l | decide (l = .len) = true})
      (copy (persist (Loc.InBuf text.length) (.done ())) 0 text)
      (fun _ p => Complete text p.medium) (Cut text) := by
    refine (copy_triple hfits hlast rfl).mono (fun p hpre => ⟨hpre.1, ?_⟩) (fun _ _ => id)
      fun _ => id
    exact hpre.2.mono fun l hl => decide_eq_true hl
  refine .call (fun _ => Stored text 0) stable_zeroed (fun p hpre => ?_)
    (fun p _ p' hpre hexec => ?_) fun _ => persist_triple stable_stored
      (fun p hstored => hstored.torn hfits (.inl rfl)) (fun _ range hstored => hstored.flush range)
      (fun _ => Stored.drain) hcopy
  · change Torn text p.medium
    rw [hpre.2]
    exact torn_zeroed
  · cases hexec
    exact stored_created hpre.1 hpre.2

end Writer

/-- Wherever the writer is cut off, and whatever the cache has written back by then, the
reader prints the string exactly when all of it is in persistent memory. -/
theorem torn_writes_detected (text : List Char) (hnul : nul ∉ text)
    (hfits : text.length < maxBufLen) (q : Prog (Cmd Val) Unit) (p : Pipeline Val)
    (hreaches : Reaches machine (writer text) created q p) :
    (reader p.medium = .printed (text ++ ['\n']) ↔ Complete text p.medium) ∧
    (¬ Complete text p.medium → reader p.medium = .silent ∨
      p.medium .len = 0 ∧ reader p.medium = .printed ['\n']) ∧
    (q = .done () → Complete text p.medium) := by
  have htriple := writer_triple hfits
  have htorn : Torn text p.medium := htriple.cut created q p ⟨rfl, rfl⟩ hreaches
  have hnot (hincomplete : ¬ Complete text p.medium) : reader p.medium = .silent ∨
      p.medium .len = 0 ∧ reader p.medium = .printed ['\n'] := by
    cases htorn.len with
    | inl hzero => exact .inr ⟨hzero, reader_of_len_eq_zero htorn hzero⟩
    | inr hlen => exact .inl (reader_of_not_complete hfits htorn hlen hincomplete)
  refine ⟨⟨fun hprinted => ?_, reader_of_complete hnul hfits htorn⟩, hnot, ?_⟩
  · by_contra hincomplete
    obtain hsilent | ⟨hzero, hempty⟩ := hnot hincomplete
    · cases hsilent.symm.trans hprinted
    · have hline := Output.printed.inj (hempty.symm.trans hprinted)
      have htext : text = [] := by
        have hlength := congrArg List.length hline
        rw [List.length_append] at hlength
        exact List.eq_nil_of_length_eq_zero (Nat.add_eq_right.mp hlength.symm)
      subst htext
      exact hincomplete ⟨hzero, fun i c hc => by simp at hc⟩
  · rintro rfl
    exact htriple.post created () p ⟨rfl, rfl⟩ hreaches

/-- Killed when the first of two characters has reached the medium. -/
theorem torn_writes_detected_half : ∃ q p, Reaches machine (writer ['a', 'b']) created q p ∧
    p.medium (.char 0) = 'a' ∧ reader p.medium = .silent := by
  obtain ⟨q, p, hreaches, hlen, hfirst, hsecond⟩ : ∃ q p,
      Reaches machine (writer ['a', 'b']) created q p ∧ p.medium .len = 2 ∧
      p.medium (.char 0) = 'a' ∧ p.medium (.char 1) = nul := by
    refine ⟨_, _, .call (x := ()) rfl <| .call (x := ()) rfl <| .call (x := ()) rfl <|
      .call (x := ()) rfl <| .drift ⟨.char 0, 'a', rfl, rfl⟩ <| .refl _ _, ?_, ?_, ?_⟩ <;> rfl
  refine ⟨q, p, hreaches, hfirst, ?_⟩
  obtain ⟨_, hnot, _⟩ := torn_writes_detected ['a', 'b'] (by decide) (by decide) q p hreaches
  have hincomplete : ¬ Complete ['a', 'b'] p.medium := by
    rintro ⟨_, hchars⟩
    have hchar := (hchars 1 'b' rfl).symm.trans hsecond
    exact absurd hchar (by decide)
  refine (hnot hincomplete).resolve_right ?_
  rintro ⟨hzero, _⟩
  exact absurd (hlen.symm.trans hzero) (by decide)

end SpackPlayground.WriterReader
