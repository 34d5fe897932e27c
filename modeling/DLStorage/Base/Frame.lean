import Mathlib.Data.List.Basic
import Mathlib.Tactic.Ring

/-!
# Frames on a byte stream

A frame is a body preceded by its length, as a big-endian number of `w` bytes.  A reader takes a given number of bytes
from a source, or fails when the source ends before them; `ReadsExactly` says so without a word on how the bytes
arrive.  `receives_frames` is the law of such streams: whoever reads frame after frame from a stream that is cut off
gets the bodies whose frames lie before the cut, in order, and then the error of an ended stream.
-/

namespace Base

/-! ### Big-endian numbers -/

/-- A number in `w` bytes, the most significant first. -/
def bigEndian : Nat → Nat → List UInt8
  | 0, _ => []
  | w + 1, n => bigEndian w (n / 256) ++ [UInt8.ofNat n]

/-- The number that bytes stand for, the most significant first. -/
def ofBigEndian (l : List UInt8) : Nat := l.foldl (fun n b => 256 * n + b.toNat) 0

@[simp] theorem length_bigEndian (w n : Nat) : (bigEndian w n).length = w := by
  induction w generalizing n with
  | zero => rfl
  | succ w ih => rw [bigEndian, List.length_append, ih, List.length_singleton]

theorem ofBigEndian_concat (l : List UInt8) (b : UInt8) : ofBigEndian (l ++ [b]) = 256 * ofBigEndian l + b.toNat := by
  simp [ofBigEndian]

/-- A number is recovered from its bytes if it fits into them. -/
theorem ofBigEndian_bigEndian {w n : Nat} (h : n < 256 ^ w) : ofBigEndian (bigEndian w n) = n := by
  induction w generalizing n with
  | zero =>
    have hn : n = 0 := by omega
    rw [hn]
    rfl
  | succ w ih =>
    have hdiv : n / 256 < 256 ^ w := by
      rw [Nat.div_lt_iff_lt_mul (by omega), ← Nat.pow_succ]
      exact h
    have hlast : (UInt8.ofNat n).toNat = n % 256 := by simp
    rw [bigEndian, ofBigEndian_concat, ih hdiv, hlast]
    omega

/-! ### Frames -/

section Frames

variable {σ ε μ : Type}

/-- A body preceded by its length. -/
def frame (w : Nat) (body : List UInt8) : List UInt8 := bigEndian w body.length ++ body

theorem length_frame (w : Nat) (body : List UInt8) : (frame w body).length = w + body.length := by
  rw [frame, List.length_append, length_bigEndian]

/-- Reading `n` bytes yields the next `n` bytes of what the source still holds, or fails if it holds fewer. -/
structure ReadsExactly (content : σ → List UInt8) (read : Nat → σ → Except ε (List UInt8 × σ)) (eof : ε) : Prop where
  enough : ∀ n s, n ≤ (content s).length →
    ∃ s', read n s = .ok ((content s).take n, s') ∧ content s' = (content s).drop n
  short : ∀ n s, (content s).length < n → read n s = .error eof

/-- A frame is read: its header, then as many bytes as that says, which are decoded. -/
def readFrame (w : Nat) (read : Nat → σ → Except ε (List UInt8 × σ)) (decode : List UInt8 → Except ε μ) (s : σ) :
    Except ε (μ × σ) := do
  let (header, s) ← read w s
  let (body, s) ← read (ofBigEndian header) s
  let m ← decode body
  .ok (m, s)

/-- Calling `recv` again and again gives the messages, and then raises the error. -/
inductive Receives (recv : σ → Except ε (μ × σ)) : σ → List μ → ε → Prop
  | stop {s : σ} {e : ε} (failed : recv s = .error e) : Receives recv s [] e
  | next {s s' : σ} {m : μ} {ms : List μ} {e : ε} (received : recv s = .ok (m, s')) (rest : Receives recv s' ms e) :
      Receives recv s (m :: ms) e

/-- The elements of a list that lie wholly before a cut, where each takes up as much room as `size` says. -/
def before (size : μ → Nat) : Nat → List μ → List μ
  | _, [] => []
  | cut, m :: ms => if size m ≤ cut then m :: before size (cut - size m) ms else []

theorem before_congr {size size' : μ → Nat} {ms : List μ} (h : ∀ m ∈ ms, size m = size' m) (cut : Nat) :
    before size cut ms = before size' cut ms := by
  induction ms generalizing cut with
  | nil => rfl
  | cons m ms ih =>
    rw [before, before, h m List.mem_cons_self, ih (fun m' hm' => h m' (List.mem_cons_of_mem _ hm'))]

theorem before_append (size : μ → Nat) (ms ms' : List μ) (cut : Nat) :
    before size ((ms.map size).sum + cut) (ms ++ ms') = ms ++ before size cut ms' := by
  induction ms with
  | nil => simp
  | cons m ms ih =>
    have hsum : ((m :: ms).map size).sum + cut = size m + ((ms.map size).sum + cut) := by
      rw [List.map_cons, List.sum_cons]
      omega
    rw [hsum, List.cons_append, before, if_pos (by omega), Nat.add_sub_cancel_left, ih]
    rfl

variable {w : Nat} {content : σ → List UInt8} {read : Nat → σ → Except ε (List UInt8 × σ)} {eof : ε}
  {decode : List UInt8 → Except ε μ} {s : σ}

/-- From a source that begins with a frame the header is read, and then the body. -/
theorem readsExactly_frame (hread : ReadsExactly content read eof) {body rest : List UInt8}
    (hs : content s = frame w body ++ rest) :
    ∃ s₁ s₂, read w s = .ok (bigEndian w body.length, s₁) ∧ read body.length s₁ = .ok (body, s₂) ∧
      content s₂ = rest := by
  have hs' : content s = bigEndian w body.length ++ (body ++ rest) := by
    rw [hs, frame, List.append_assoc]
  obtain ⟨s₁, hheader, hs₁⟩ := hread.enough w s (by rw [hs', List.length_append, length_bigEndian]; omega)
  rw [hs', List.take_left' (length_bigEndian _ _)] at hheader
  rw [hs', List.drop_left' (length_bigEndian _ _)] at hs₁
  obtain ⟨s₂, hbody, hs₂⟩ := hread.enough body.length s₁ (by rw [hs₁, List.length_append]; omega)
  rw [hs₁, List.take_left' rfl] at hbody
  rw [hs₁, List.drop_left' rfl] at hs₂
  exact ⟨s₁, s₂, hheader, hbody, hs₂⟩

/-- A source that begins with a frame yields its body. -/
theorem readFrame_of_frame (hread : ReadsExactly content read eof) {body rest : List UInt8} {m : μ}
    (hlen : body.length < 256 ^ w) (hm : decode body = .ok m) (hs : content s = frame w body ++ rest) :
    ∃ s', readFrame w read decode s = .ok (m, s') ∧ content s' = rest := by
  obtain ⟨s₁, s₂, hheader, hbody, hs₂⟩ := readsExactly_frame hread hs
  refine ⟨s₂, ?_, hs₂⟩
  simp only [readFrame, hheader, bind, Except.bind, ofBigEndian_bigEndian hlen, hbody, hm]

/-- A source that begins with the frame of a body that cannot be decoded fails. -/
theorem readFrame_of_undecodable (hread : ReadsExactly content read eof) {body rest : List UInt8} {e : ε}
    (hlen : body.length < 256 ^ w) (he : decode body = .error e) (hs : content s = frame w body ++ rest) :
    readFrame w read decode s = .error e := by
  obtain ⟨s₁, s₂, hheader, hbody, -⟩ := readsExactly_frame hread hs
  simp only [readFrame, hheader, bind, Except.bind, ofBigEndian_bigEndian hlen, hbody, he]

/-- A source that ends within a frame fails. -/
theorem readFrame_of_short (hread : ReadsExactly content read eof) {body : List UInt8} {cut : Nat}
    (hlen : body.length < 256 ^ w) (hcut : cut < (frame w body).length) (hs : content s = (frame w body).take cut) :
    readFrame w read decode s = .error eof := by
  have hlength : (content s).length = cut := by
    rw [hs, List.length_take]
    omega
  by_cases hheader : cut < w
  · simp only [readFrame, hread.short w s (by omega), bind, Except.bind]
  · -- the header is there, and the body is cut
    obtain ⟨s₁, hfirst, hs₁⟩ := hread.enough w s (by omega)
    have htake : (content s).take w = bigEndian w body.length := by
      rw [hs, List.take_take, Nat.min_eq_left (by omega), frame, List.take_left' (length_bigEndian _ _)]
    rw [length_frame] at hcut
    have hshort : (content s₁).length < body.length := by
      rw [hs₁, List.length_drop]
      omega
    simp only [readFrame, hfirst, bind, Except.bind, htake, ofBigEndian_bigEndian hlen, hread.short _ s₁ hshort]

/-- Reading frame after frame from a stream that is cut off gives what lies before the cut, and then the error of an
ended stream. -/
theorem receives_frames (hw : 0 < w) (hread : ReadsExactly content read eof) (encode : μ → List UInt8) (ms : List μ)
    (hms : ∀ m ∈ ms, (encode m).length < 256 ^ w ∧ decode (encode m) = .ok m) {cut : Nat}
    (hs : content s = ((ms.map (fun m => frame w (encode m))).flatten).take cut) :
    Receives (readFrame w read decode) s (before (fun m => (frame w (encode m)).length) cut ms) eof := by
  induction ms generalizing s cut with
  | nil =>
    have hempty : content s = [] := by rw [hs, List.map_nil, List.flatten_nil, List.take_nil]
    refine .stop ?_
    simp only [readFrame, hread.short w s (by rw [hempty]; exact hw), bind, Except.bind]
  | cons m ms ih =>
    obtain ⟨hlen, hm⟩ := hms m List.mem_cons_self
    rw [List.map_cons, List.flatten_cons] at hs
    rw [before]
    split
    · rename_i hfits
      rw [List.take_append, List.take_of_length_le hfits] at hs
      obtain ⟨s', hrecv, hs'⟩ := readFrame_of_frame hread hlen hm hs
      exact .next hrecv (ih (fun m' hm' => hms m' (List.mem_cons_of_mem _ hm')) hs')
    · rename_i hcut
      rw [List.take_append_of_le_length (by omega)] at hs
      exact .stop (readFrame_of_short hread hlen (by omega) hs)

end Frames

end Base
