import FlipperZero.Furi.ValueMutex

/-! # The bracket of a value mutex

A read or a write whose length fits the value takes the mutex and gives it back whatever
happens. Copies never overlap, so a read sees the value as whole copies have left it.
-/

namespace FlipperZero.Furi

open Lib

variable {Thread Byte : Type} {size : ℕ} {value : ℕ → Byte}

/-- The value after copies into it, the newest first. -/
def contents (value : ℕ → Byte) : List (Store Byte) → ℕ → Byte
  | [] => value
  | st :: sts => fun i => if i < st.length then st.data i else contents value sts i

theorem contents_whole {sts : List (Store Byte)} (h : ∀ st ∈ sts, size ≤ st.length) :
    (∀ i < size, contents value sts i = value i) ∨
      ∃ st ∈ sts, ∀ i < size, contents value sts i = st.data i := by
  cases sts with
  | nil => exact .inl fun _ _ => rfl
  | cons st sts =>
    refine .inr ⟨st, by simp, fun i hi => ?_⟩
    have hlt : i < st.length := Nat.lt_of_lt_of_le hi (h st (by simp))
    exact if_pos hlt

theorem copyLength_le {len : ℕ} (h : len ≤ size) : copyLength size len ≤ size := by
  unfold copyLength
  split
  · exact h
  · exact Nat.le_refl _

def bytes (n : ℕ) (value : ℕ → Byte) : List Byte := (List.range n).map value

theorem bytes_succ (n : ℕ) (value : ℕ → Byte) : bytes (n + 1) value = bytes n value ++ [value n] := by
  simp [bytes, List.range_succ]

@[simp] theorem length_bytes (n : ℕ) (value : ℕ → Byte) : (bytes n value).length = n := by
  simp [bytes]

theorem bytes_congr {n : ℕ} {v w : ℕ → Byte} (h : ∀ i < n, v i = w i) : bytes n v = bytes n w := by
  apply List.map_congr_left
  intro i hi
  exact h i (List.mem_range.mp hi)

/-- What the returned calls say: of the mutex, of the value, and of what was read. -/
structure Bracket (size : ℕ) (value : ℕ → Byte) (s : State Thread Byte) : Prop where
  held : ∀ r, r ∈ s.reads ∨ r ∈ s.writes → r.len ≤ size → r.after = r.before
  unchanged : ∀ r, r ∈ s.reads ∨ r ∈ s.writes → r.result = false → r.stored = 0
  stored : ∀ r ∈ s.writes, r.result = true → r.stored = copyLength size r.len
  whole : ∀ r ∈ s.reads, r.result = true → r.len ≤ size ∧ ∃ older, older <:+ s.stores ∧
    r.data = bytes (copyLength size r.len) (contents value older)

/-- Where every write stores the whole value, a read returns one of them or the initial value. -/
theorem Bracket.single {s : State Thread Byte} (h : Bracket size value s)
    (hwhole : ∀ st ∈ s.stores, size ≤ st.length) {r : Return Byte} (hr : r ∈ s.reads)
    (hresult : r.result = true) :
    r.data = bytes (copyLength size r.len) value ∨
      ∃ st ∈ s.stores, r.data = bytes (copyLength size r.len) st.data := by
  obtain ⟨hlen, older, holder, hdata⟩ := h.whole r hr hresult
  have hle := copyLength_le hlen
  rcases contents_whole fun st hst => hwhole st (holder.subset hst) with hv | ⟨st, hst, hv⟩
  · left
    rw [hdata]
    exact bytes_congr fun i hi => hv i (Nat.lt_of_lt_of_le hi hle)
  · right
    refine ⟨st, holder.subset hst, ?_⟩
    rw [hdata]
    exact bytes_congr fun i hi => hv i (Nat.lt_of_lt_of_le hi hle)

def Call.length : Call Byte → ℕ
  | .readMutex len _ | .writeMutex _ len _ => len
  | .acquireMutex _ | .releaseMutex _ => 0

/-- A value into which a thread at this place has begun to copy. -/
def Pc.progress (v : ℕ → Byte) : Pc Byte → ℕ → Byte
  | .store data _ _ count => fun i => if i < count then data i else v i
  | _ => v

namespace State

/-- What the place of a thread says about the mutex and about the bytes it has copied. -/
def At (size : ℕ) (value : ℕ → Byte) (s : State Thread Byte) (t : Thread) : Pc Byte → Prop
  | .idle | .release _ => True
  | .acquire _ held => held = true ↔ s.mutex = some t
  | .locked _ held => held = false ∧ s.mutex = some t
  | .load len held got =>
    held = false ∧ s.mutex = some t ∧ len ≤ size ∧ got.length ≤ copyLength size len ∧
      got = bytes got.length (contents value s.stores)
  | .store _ len held count =>
    held = false ∧ s.mutex = some t ∧ len ≤ size ∧ count ≤ copyLength size len
  | .readRelease len held got =>
    held = false ∧ s.mutex = some t ∧ len ≤ size ∧
      got = bytes (copyLength size len) (contents value s.stores)
  | .writeRelease len held count =>
    held = false ∧ s.mutex = some t ∧ len ≤ size ∧ count = copyLength size len

/-- The value as the completed copies and the one in progress have left it. -/
def expected (value : ℕ → Byte) (s : State Thread Byte) : ℕ → Byte :=
  match s.mutex with
  | none => contents value s.stores
  | some t => Pc.progress (contents value s.stores) (s.pc t)

theorem At.frame {s s' : State Thread Byte} {t : Thread} {p : Pc Byte} (h : s.At size value t p)
    (hm : s'.mutex = some t ↔ s.mutex = some t)
    (hstores : s.mutex = some t → s'.stores = s.stores) : s'.At size value t p := by
  cases p with
  | idle => trivial
  | release held => trivial
  | acquire c held => exact Iff.trans h hm.symm
  | locked c held => exact ⟨h.1, hm.mpr h.2⟩
  | load len held got =>
    obtain ⟨hheld, hmutex, hrest⟩ := h
    exact ⟨hheld, hm.mpr hmutex, by rw [hstores hmutex]; exact hrest⟩
  | store data len held count => exact ⟨h.1, hm.mpr h.2.1, h.2.2⟩
  | readRelease len held got =>
    obtain ⟨hheld, hmutex, hrest⟩ := h
    exact ⟨hheld, hm.mpr hmutex, by rw [hstores hmutex]; exact hrest⟩
  | writeRelease len held count => exact ⟨h.1, hm.mpr h.2.1, h.2.2⟩

end State

structure Inv (size : ℕ) (value : ℕ → Byte) (s : State Thread Byte) : Prop where
  place : ∀ t, s.At size value t (s.pc t)
  content : s.value = s.expected value
  bracket : Bracket size value s

variable {s s' x : State Thread Byte} {t : Thread} {p : Pc Byte}

namespace Bracket

theorem store (h : Bracket size value s) (st : Store Byte) :
    Bracket size value { s with stores := st :: s.stores } where
  held := h.held
  unchanged := h.unchanged
  stored := h.stored
  whole r hr hresult := by
    obtain ⟨hlen, older, holder, hdata⟩ := h.whole r hr hresult
    exact ⟨hlen, older, holder.trans (List.suffix_cons _ _), hdata⟩

end Bracket

theorem Inv.settled (h : Inv size value s)
    (hidle : ∀ t data len held count, s.pc t ≠ .store data len held count) :
    s.value = contents value s.stores := by
  rw [h.content]
  unfold State.expected
  split
  · rfl
  · next t hm =>
    have hno := hidle t
    cases hpc : s.pc t with
    | store data len held count => exact absurd hpc (hno data len held count)
    | _ => rfl

variable [DecidableEq Thread]

namespace Bracket

theorem read (h : Bracket size value s) {len : ℕ} {held result : Bool} {data : List Byte}
    (hheld : len ≤ size → s.holds t = held)
    (hwhole : result = true → len ≤ size ∧ ∃ older, older <:+ s.stores ∧
      data = bytes (copyLength size len) (contents value older)) :
    Bracket size value (s.returnRead t len held result data) where
  held r hr hlen := by
    rcases hr with hr | hr
    · rcases List.mem_cons.mp hr with rfl | hr
      · exact hheld hlen
      · exact h.held r (.inl hr) hlen
    · exact h.held r (.inr hr) hlen
  unchanged r hr hresult := by
    rcases hr with hr | hr
    · rcases List.mem_cons.mp hr with rfl | hr
      · rfl
      · exact h.unchanged r (.inl hr) hresult
    · exact h.unchanged r (.inr hr) hresult
  stored := h.stored
  whole r hr hresult := by
    rcases List.mem_cons.mp hr with rfl | hr
    · exact hwhole hresult
    · exact h.whole r hr hresult

theorem write (h : Bracket size value s) {len count : ℕ} {held result : Bool}
    (hheld : len ≤ size → s.holds t = held) (hunchanged : result = false → count = 0)
    (hstored : result = true → count = copyLength size len) :
    Bracket size value (s.returnWrite t len held result count) where
  held r hr hlen := by
    rcases hr with hr | hr
    · exact h.held r (.inl hr) hlen
    · rcases List.mem_cons.mp hr with rfl | hr
      · exact hheld hlen
      · exact h.held r (.inr hr) hlen
  unchanged r hr hresult := by
    rcases hr with hr | hr
    · exact h.unchanged r (.inl hr) hresult
    · rcases List.mem_cons.mp hr with rfl | hr
      · exact hunchanged hresult
      · exact h.unchanged r (.inr hr) hresult
  stored r hr hresult := by
    rcases List.mem_cons.mp hr with rfl | hr
    · exact hstored hresult
    · exact h.stored r hr hresult
  whole := h.whole

end Bracket

namespace Inv

theorem goto (h : Inv size value s) (hpc : x.pc = s.pc)
    (hm : ∀ u, u ≠ t → (x.mutex = some u ↔ s.mutex = some u))
    (hstores : ∀ u, u ≠ t → s.mutex = some u → x.stores = s.stores)
    (hself : x.At size value t p) (hvalue : x.value = (x.goto t p).expected value)
    (hbracket : Bracket size value x) : Inv size value (x.goto t p) where
  place u := by
    by_cases hu : u = t
    · subst hu
      have hat : (x.goto u p).At size value u p := hself.frame Iff.rfl fun _ => rfl
      simpa only [State.goto, Function.update_self] using hat
    · have hat : (x.goto t p).At size value u (s.pc u) :=
        (h.place u).frame (hm u hu) (hstores u hu)
      simpa only [State.goto, Function.update_of_ne hu, hpc] using hat
  content := hvalue
  bracket := ⟨hbracket.held, hbracket.unchanged, hbracket.stored, hbracket.whole⟩

end Inv

theorem State.expected_goto (h : s.mutex = some t →
      p.progress (contents value s.stores) = (s.pc t).progress (contents value s.stores)) :
    (s.goto t p).expected value = s.expected value := by
  unfold State.expected State.goto
  cases hm : s.mutex with
  | none => rfl
  | some u =>
    by_cases hu : u = t
    · subst hu
      simpa using h hm
    · simp [hu]

namespace Inv

theorem idle (h : Inv size value s) (hself : s.At size value t p)
    (hprogress : s.mutex = some t →
      p.progress (contents value s.stores) = (s.pc t).progress (contents value s.stores)) :
    Inv size value (s.goto t p) :=
  h.goto rfl (fun _ _ => Iff.rfl) (fun _ _ _ => rfl) hself
    (by rw [State.expected_goto hprogress]; exact h.content) h.bracket

theorem call (h : Inv size value s) {c : Call Byte} (hs : s.call t c = some s') :
    Inv size value s' := by
  unfold State.call at hs
  split at hs
  · next hidle =>
    split at hs
    · split at hs
      · obtain rfl := Option.some.inj hs
        exact h.idle trivial (by simp [hidle, Pc.progress])
      · obtain rfl := Option.some.inj hs
        exact h
    · obtain rfl := Option.some.inj hs
      exact h.idle (by simp [State.At, State.holds]) (by simp [hidle, Pc.progress])
  · cases hs

theorem read (h : Inv size value (x.goto t .idle)) {len : ℕ} {held result : Bool}
    {data : List Byte} (hheld : len ≤ size → x.holds t = held)
    (hwhole : result = true → len ≤ size ∧ ∃ older, older <:+ x.stores ∧
      data = bytes (copyLength size len) (contents value older)) :
    Inv size value (x.returnRead t len held result data) where
  place u := (h.place u).frame Iff.rfl fun _ => rfl
  content := h.content
  bracket := by
    have hb : Bracket size value x :=
      ⟨h.bracket.held, h.bracket.unchanged, h.bracket.stored, h.bracket.whole⟩
    exact hb.read hheld hwhole

theorem write (h : Inv size value (x.goto t .idle)) {len count : ℕ} {held result : Bool}
    (hheld : len ≤ size → x.holds t = held) (hunchanged : result = false → count = 0)
    (hstored : result = true → count = copyLength size len) :
    Inv size value (x.returnWrite t len held result count) where
  place u := (h.place u).frame Iff.rfl fun _ => rfl
  content := h.content
  bracket := by
    have hb : Bracket size value x :=
      ⟨h.bracket.held, h.bracket.unchanged, h.bracket.stored, h.bracket.whole⟩
    exact hb.write hheld hunchanged hstored

theorem refuse (h : Inv size value s) {c : Call Byte} {held : Bool}
    (hpc : (s.pc t).progress (contents value s.stores) = contents value s.stores)
    (hheld : c.length ≤ size → s.holds t = held) : Inv size value (s.refuse t c held) := by
  have hidle : Inv size value (s.goto t .idle) := h.idle trivial fun _ => hpc.symm
  cases c with
  | acquireMutex timeout => exact hidle
  | releaseMutex valid => exact hidle
  | readMutex len timeout => exact hidle.read hheld (by simp)
  | writeMutex data len timeout => exact hidle.write hheld (fun _ => rfl) (by simp)

theorem timeout (h : Inv size value s) (hs : s.timeout t = some s') : Inv size value s' := by
  have hat := h.place t
  unfold State.timeout at hs
  split at hs
  · next c held hpc =>
    rw [hpc] at hat
    split at hs
    · obtain rfl := Option.some.inj hs
      apply h.refuse (by rw [hpc]; rfl)
      intro _
      have hiff : held = true ↔ s.mutex = some t := hat
      rw [State.holds, Bool.eq_iff_iff, hiff, decide_eq_true_iff]
    · cases hs
  · cases hs

theorem unlock (h : Inv size value s) (hm : s.mutex = some t)
    (hpc : (s.pc t).progress (contents value s.stores) = contents value s.stores) :
    Inv size value ((s.osMutexRelease t).1.goto t .idle) := by
  have hrelease : s.osMutexRelease t = ({ s with mutex := none }, true) := if_pos hm
  rw [hrelease]
  refine h.goto (x := { s with mutex := none }) rfl ?_ (fun _ _ _ => rfl) trivial ?_ ?_
  · intro u hu
    simp [hm, Ne.symm hu]
  · have hcontent := h.content
    simp only [State.expected, hm, hpc] at hcontent
    exact hcontent
  · exact ⟨h.bracket.held, h.bracket.unchanged, h.bracket.stored, h.bracket.whole⟩

theorem lock (h : Inv size value s) {c : Call Byte} {held : Bool} (hpc : s.pc t = .acquire c held)
    (hfree : s.mutex = none) : Inv size value ({ s with mutex := some t }.goto t (.locked c held)) := by
  have hheld : held = false := by
    have hiff : held = true ↔ s.mutex = some t := by
      have hat := h.place t
      rw [hpc] at hat
      exact hat
    simpa [hfree] using hiff
  refine h.goto (x := { s with mutex := some t }) rfl ?_ (fun _ _ _ => rfl) ⟨hheld, rfl⟩ ?_ ?_
  · intro u hu
    simp [hfree, Ne.symm hu]
  · have hcontent := h.content
    simp only [State.expected, hfree] at hcontent
    simpa [State.expected, State.goto, Pc.progress] using hcontent
  · exact ⟨h.bracket.held, h.bracket.unchanged, h.bracket.stored, h.bracket.whole⟩

theorem storeByte (h : Inv size value s) {data : ℕ → Byte} {len count : ℕ} {held : Bool}
    (hpc : s.pc t = .store data len held count) (hlt : count < copyLength size len) :
    Inv size value ({ s with value := Function.update s.value count (data count) }.goto t
      (.store data len held (count + 1))) := by
  have hat := h.place t
  rw [hpc] at hat
  obtain ⟨hheld, hm, hlen, hcount⟩ := hat
  have hcontent := h.content
  simp only [State.expected, hm, hpc, Pc.progress] at hcontent
  refine h.goto (x := { s with value := Function.update s.value count (data count) }) rfl
    (fun _ _ => Iff.rfl) (fun _ _ _ => rfl) ⟨hheld, hm, hlen, hlt⟩ ?_ ?_
  · simp only [State.expected, State.goto, hm, Function.update_self, Pc.progress]
    ext i
    rw [hcontent]
    rcases Nat.lt_trichotomy i count with hi | rfl | hi
    · simp [Function.update_of_ne (Nat.ne_of_lt hi), hi, Nat.lt_succ_of_lt hi]
    · simp
    · simp [Function.update_of_ne (Nat.ne_of_gt hi), Nat.not_lt_of_gt hi, Nat.not_lt.mpr hi]
  · exact ⟨h.bracket.held, h.bracket.unchanged, h.bracket.stored, h.bracket.whole⟩

theorem storeEnd (h : Inv size value s) {data : ℕ → Byte} {len count : ℕ} {held : Bool}
    (hpc : s.pc t = .store data len held count) (hge : ¬ count < copyLength size len) :
    Inv size value ({ s with stores := ⟨data, copyLength size len⟩ :: s.stores }.goto t
      (.writeRelease len held count)) := by
  have hat := h.place t
  rw [hpc] at hat
  obtain ⟨hheld, hm, hlen, hcount⟩ := hat
  have heq : count = copyLength size len := Nat.le_antisymm hcount (Nat.not_lt.mp hge)
  have hcontent := h.content
  simp only [State.expected, hm, hpc, Pc.progress, heq] at hcontent
  refine h.goto (x := { s with stores := ⟨data, copyLength size len⟩ :: s.stores }) rfl
    (fun _ _ => Iff.rfl) ?_ ⟨hheld, hm, hlen, heq⟩ ?_ (h.bracket.store _)
  · intro u hu hmu
    exact absurd (Option.some.inj (hmu.symm.trans hm)) hu
  · simpa [State.expected, State.goto, hm, Pc.progress, contents] using hcontent

theorem step (h : Inv size value s) (hs : s.step t size = some s') : Inv size value s' := by
  have hat := h.place t
  unfold State.step at hs
  split at hs
  · cases hs
  · next c held hpc =>
    split at hs
    · next hfree =>
      obtain rfl := Option.some.inj hs
      exact h.lock hpc hfree
    · cases hs
  · next c held hpc =>
    rw [hpc] at hat
    obtain ⟨hheld, hm⟩ := hat
    split at hs
    · next len timeout =>
      split at hs
      · next hlt =>
        obtain rfl := Option.some.inj hs
        exact h.refuse (by rw [hpc]; rfl) fun hle => absurd hlt (Nat.not_lt.mpr hle)
      · next hle =>
        obtain rfl := Option.some.inj hs
        exact h.idle ⟨hheld, hm, Nat.not_lt.mp hle, Nat.zero_le _, rfl⟩ fun _ => by rw [hpc]; rfl
    · next data len timeout =>
      split at hs
      · next hlt =>
        obtain rfl := Option.some.inj hs
        exact h.refuse (by rw [hpc]; rfl) fun hle => absurd hlt (Nat.not_lt.mpr hle)
      · next hle =>
        obtain rfl := Option.some.inj hs
        refine h.idle ⟨hheld, hm, Nat.not_lt.mp hle, Nat.zero_le _⟩ fun _ => ?_
        simp [hpc, Pc.progress]
    · obtain rfl := Option.some.inj hs
      exact h.idle trivial fun _ => by rw [hpc]; rfl
  · next len held got hpc =>
    rw [hpc] at hat
    obtain ⟨hheld, hm, hlen, hle, hgot⟩ := hat
    have hcontent := h.content
    simp only [State.expected, hm, hpc, Pc.progress] at hcontent
    split at hs
    · next hlt =>
      obtain rfl := Option.some.inj hs
      have hlength : (got ++ [s.value got.length]).length = got.length + 1 := by simp
      refine h.idle ⟨hheld, hm, hlen, by rw [hlength]; exact hlt, ?_⟩ fun _ => by rw [hpc]; rfl
      rw [hlength, bytes_succ, ← hgot, hcontent]
    · next hge =>
      obtain rfl := Option.some.inj hs
      refine h.idle ⟨hheld, hm, hlen, ?_⟩ fun _ => by rw [hpc]; rfl
      rwa [Nat.le_antisymm hle (Nat.not_lt.mp hge)] at hgot
  · next data len held count hpc =>
    split at hs
    · next hlt =>
      obtain rfl := Option.some.inj hs
      exact h.storeByte hpc hlt
    · next hge =>
      obtain rfl := Option.some.inj hs
      exact h.storeEnd hpc hge
  · next len held got hpc =>
    rw [hpc] at hat
    obtain ⟨rfl, hm, hlen, hgot⟩ := hat
    obtain rfl := Option.some.inj hs
    have hrelease : s.osMutexRelease t = ({ s with mutex := none }, true) := if_pos hm
    apply (h.unlock hm (by rw [hpc]; rfl)).read
    · intro _
      rw [hrelease]
      rfl
    · intro _
      rw [hrelease]
      exact ⟨hlen, s.stores, List.suffix_rfl, hgot⟩
  · next len held count hpc =>
    rw [hpc] at hat
    obtain ⟨rfl, hm, hlen, hcount⟩ := hat
    obtain rfl := Option.some.inj hs
    have hrelease : s.osMutexRelease t = ({ s with mutex := none }, true) := if_pos hm
    apply (h.unlock hm (by rw [hpc]; rfl)).write
    · intro _
      rw [hrelease]
      rfl
    · intro hfalse
      rw [hrelease] at hfalse
      cases hfalse
    · exact fun _ => hcount
  · next held hpc =>
    obtain rfl := Option.some.inj hs
    by_cases hm : s.mutex = some t
    · exact h.unlock hm (by rw [hpc]; rfl)
    · rw [State.osMutexRelease, if_neg hm]
      exact h.idle trivial fun _ => by rw [hpc]; rfl

end Inv

theorem inv_init (size : ℕ) (value : ℕ → Byte) :
    Inv size value (valueMutex Thread size value).init where
  place _ := trivial
  content := rfl
  bracket := ⟨by simp [valueMutex], by simp [valueMutex], by simp [valueMutex], by simp [valueMutex]⟩

/-- Whatever the threads call, with any lengths and timeouts: the calls keep the bracket, only
whole copies change the value, and whole writes are what reads return. -/
theorem value_bracket (h : (valueMutex Thread size value).Reachable s) :
    Bracket size value s ∧
      ((∀ t data len held count, s.pc t ≠ .store data len held count) →
        s.value = contents value s.stores) ∧
      ((∀ st ∈ s.stores, size ≤ st.length) → ∀ r ∈ s.reads, r.result = true →
        r.data = bytes (copyLength size r.len) value ∨
          ∃ st ∈ s.stores, r.data = bytes (copyLength size r.len) st.data) := by
  have hinv : Inv size value s := by
    refine h.invariant (inv_init size value) fun s l s' hi hs => ?_
    cases l with
    | call t c => exact hi.call hs
    | timeout t => exact hi.timeout hs
    | step t => exact hi.step hs
  exact ⟨hinv.bracket, hinv.settled, fun hwhole r hr hresult =>
    hinv.bracket.single hwhole hr hresult⟩

section Runs

/-- A byte is written in front of a value of two, which is read afterwards. -/
def partialRun : List (Label Unit ℕ) :=
  Label.call () (.writeMutex (fun _ => 1) 1 0) :: List.replicate 5 (.step ()) ++
    Label.call () (.readMutex 0 0) :: List.replicate 6 (.step ())

theorem value_bracket_partial :
    ∃ s, (valueMutex Unit 2 fun _ => 0).Reachable s ∧
      s.reads = [⟨0, true, [1, 0], 0, false, false⟩] ∧ Bracket 2 (fun _ => 0) s := by
  have hrun : ∃ s, (valueMutex Unit 2 fun _ => 0).exec (valueMutex Unit 2 fun _ => 0).init
      partialRun = some s ∧ s.reads = [⟨0, true, [1, 0], 0, false, false⟩] := ⟨_, rfl, rfl⟩
  obtain ⟨s, hs, hreads⟩ := hrun
  have hreach := Machine.exec_reachable .init hs
  exact ⟨s, hreach, hreads, (value_bracket hreach).1⟩

/-- A read that is too long keeps the mutex; a read after a short write returns a mixture. -/
theorem not_value_bracket :
    (∃ s, (valueMutex Unit 1 fun _ => 0).Reachable s ∧ s.mutex = some () ∧
      s.reads = [⟨2, false, [], 0, false, true⟩]) ∧
    ∃ s, (valueMutex Unit 2 fun _ => 0).Reachable s ∧ ∃ r ∈ s.reads, r.result = true ∧
      r.data ≠ bytes 2 (fun _ => 0) ∧ ∀ st ∈ s.stores, r.data ≠ bytes 2 st.data := by
  constructor
  · have hrun : ∃ s, (valueMutex Unit 1 fun _ => 0).exec (valueMutex Unit 1 fun _ => 0).init
        [.call () (.readMutex 2 0), .step (), .step ()] = some s ∧ s.mutex = some () ∧
        s.reads = [⟨2, false, [], 0, false, true⟩] := ⟨_, rfl, rfl, rfl⟩
    obtain ⟨s, hs, hm, hreads⟩ := hrun
    exact ⟨s, Machine.exec_reachable .init hs, hm, hreads⟩
  · have hrun : ∃ s, (valueMutex Unit 2 fun _ => 0).exec (valueMutex Unit 2 fun _ => 0).init
        partialRun = some s ∧ s.reads = [⟨0, true, [1, 0], 0, false, false⟩] ∧
        s.stores = [⟨fun _ => 1, 1⟩] := ⟨_, rfl, rfl, rfl⟩
    obtain ⟨s, hs, hreads, hstores⟩ := hrun
    refine ⟨s, Machine.exec_reachable .init hs, _, by rw [hreads]; exact List.mem_singleton_self _,
      rfl, by decide, ?_⟩
    intro st hst
    rw [hstores, List.mem_singleton] at hst
    rw [hst]
    decide

end Runs

end FlipperZero.Furi
