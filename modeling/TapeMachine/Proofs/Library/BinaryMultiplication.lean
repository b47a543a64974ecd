import TapeMachine.Proofs.Library.Binary
import TapeMachine.Proofs.Library.Programs
import TapeMachine.Proofs.Machine.OneTape

/-!
# Library — Binary multiplication

Binary multiplication works on a tape `P=A*B`.  In each round it takes one from `B` and adds `A` to
`P`, until `B` is zero (`exists_reaches_wipe_b`); then it erases all but `P`.  The addition takes
the bits of `A` from the lowest one on and adds each to the lowest bit of `P` that has no mark; bits
of `A` and `P` that are done with get marks (`exists_reaches_add`).  A carry runs up to the first
zero of `P`, or to the blank above it, so `P` grows to the left.

Words are told from right to left here, as their bits are added.
-/

namespace TapeMachine.Library.BinaryMultiplication

open List (replicate)
open Binary (bit value inc dec addBit add numeral)

/-- What binary multiplication comes to on a strip. -/
abbrev Reaches : Strip → Strip → Prop := Strip.Reaches binaryMultiplication

variable {p a b v : List Bool} {l r z : Word} {x y : Symbol} {s : State} {w : Nat}

/-- A marked bit of the first factor. -/
def factorMark : Bool → Symbol
  | false => 'a'
  | true => 'b'

/-- A marked bit of the product. -/
def productMark : Bool → Symbol
  | false => 'o'
  | true => 'i'

/-- The state in which a bit of the first factor is brought to the product. -/
def bringing : Bool → State
  | false => "carry0"
  | true => "carry1"

/-- The state in which a bit of the first factor is added to the product. -/
def adding : Bool → State
  | false => "add0"
  | true => "add1"

/-! ### Rules for bits -/

/-- What binary multiplication does by one of its rules. -/
abbrev Does : State → Symbol → Symbol → Move → State → Prop := binaryMultiplication.Does

theorem does_start (x : Bool) : Does "start" (bit x) (bit x) .left "open" := by decide +revert

theorem does_take (x : Bool) : Does "find_bit" (bit x) (factorMark x) .left (bringing x) := by
  decide +revert

theorem does_bring (x y : Bool) : Does (bringing x) (bit y) (bit y) .left (bringing x) := by
  decide +revert

theorem does_cross (x : Bool) : Does (bringing x) '=' '=' .left (adding x) := by decide +revert

theorem does_skip (x y : Bool) :
    Does (adding x) (productMark y) (productMark y) .left (adding x) := by decide +revert

theorem does_add_blank (x : Bool) : Does (adding x) '_' (productMark x) .right "return" := by
  decide +revert

theorem does_add_zero (y : Bool) : Does "add0" (bit y) (productMark y) .right "return" := by
  decide +revert

theorem does_return_factor (x : Bool) :
    Does "return" (factorMark x) (factorMark x) .right "return" := by decide +revert

theorem does_finish (x : Bool) : Does "finish" (bit x) (bit x) .stay "done" := by decide +revert

theorem firstRule_done (x : Bool) : binaryMultiplication.firstRule "done" [bit x] = none := by
  decide +revert

/-! ### The field of the product -/

/-- The bits of the product, with blanks above them up to one cell more than `w`. -/
def field (w : Nat) (p : List Bool) : Word := p.map bit ++ replicate (w + 1 - p.length) '_'

theorem field_nil (w : Nat) : field w [] = '_' :: replicate w '_' := rfl

theorem field_cons (w : Nat) (x : Bool) (p : List Bool) :
    field (w + 1) (x :: p) = bit x :: field w p := by
  rw [field, List.length_cons, Nat.add_sub_add_right]
  rfl

theorem field_eq (hp : p.length ≤ w) :
    field w p = p.map bit ++ '_' :: replicate (w - p.length) '_' := by
  rw [field, Nat.succ_sub hp, List.replicate_succ]

theorem field_ne_nil (w : Nat) (p : List Bool) : field w p ≠ [] := by
  cases p with
  | nil => simp [field_nil]
  | cons x p => simp [field]

/-! ### The way back -/

/-- The way back from the product leads over a word. -/
def Passable (z : Word) : Prop := ∀ c ∈ z, Does "return" c c .right "return"

theorem passable_append {z' : Word} (hz : Passable z) (hz' : Passable z') : Passable (z ++ z') :=
  List.forall_mem_append.mpr ⟨hz, hz'⟩

theorem passable_map {f : Bool → Symbol}
    (hf : ∀ x, Does "return" (f x) (f x) .right "return") (p : List Bool) :
    Passable (p.map f) :=
  List.forall_mem_map.mpr fun x _ => hf x

/-- A symbol of the product is written, and then the way back leads over a word to the star. -/
theorem reaches_star (h : Does s x y .right "return")
    (hz : Passable z) : Reaches (.leftward s (x :: l) (z.reverse ++ '*' :: r))
      (.leftward "find_bit" (z ++ y :: l) ('*' :: r)) :=
  calc
    Reaches (.leftward s (x :: l) (z.reverse ++ '*' :: r))
        ⟨"return", y :: l, z.reverse ++ '*' :: r⟩ :=
      Strip.reaches_right h
    Reaches _ ⟨"return", z ++ y :: l, '*' :: r⟩ := by
      have hsweep := Strip.sweep_right_of_mem (l := y :: l) (r := '*' :: r) (f := id) (g := id)
        fun c hc => hz c (List.mem_reverse.mp hc)
      rwa [List.map_id, List.reverse_reverse] at hsweep
    Reaches _ (.leftward "find_bit" (z ++ y :: l) ('*' :: r)) :=
      Strip.reaches_left (x := '*') (by decide) (by simp)

/-! ### Addition -/

/-- If a carry into a number is known to run as it should, then so is one that is brought about by
writing a symbol below that number. -/
theorem reaches_find_bit (h : Does s x y .left "carry") (hy : Does "return" y y .right "return")
    (hcarry : ∀ z, Passable z → Reaches (.leftward "carry" (field w p) (z.reverse ++ '*' :: r))
      (.leftward "find_bit" (z ++ field w (inc p)) ('*' :: r))) (hz : Passable z) :
    Reaches (.leftward s (x :: field w p) (z.reverse ++ '*' :: r))
      (.leftward "find_bit" (z ++ y :: field w (inc p)) ('*' :: r)) := by
  have hstep : Reaches (.leftward s (x :: field w p) (z.reverse ++ '*' :: r))
      (.leftward "carry" (field w p) (y :: (z.reverse ++ '*' :: r))) :=
    Strip.reaches_left h (field_ne_nil w p)
  have hrest := hcarry (z ++ [y]) (passable_append hz (List.forall_mem_singleton.mpr hy))
  rw [List.reverse_append, List.append_assoc, List.append_assoc] at hrest
  exact hstep.trans hrest

/-- A carry turns the lowest ones to zeros, and the zero or the blank above them to a one. -/
theorem reaches_carry (hp : p.length ≤ w) (z : Word) (hz : Passable z) :
    Reaches (.leftward "carry" (field w p) (z.reverse ++ '*' :: r))
      (.leftward "find_bit" (z ++ field w (inc p)) ('*' :: r)) := by
  induction p generalizing w z with
  | nil => exact reaches_star (by decide) hz
  | cons x p ih =>
      cases w with
      | zero => simp at hp
      | succ w =>
          cases x with
          | false =>
              rw [field_cons, inc, field_cons]
              exact reaches_star (by decide) hz
          | true =>
              rw [field_cons, inc, field_cons]
              exact reaches_find_bit (by decide) (by decide) (ih (Nat.le_of_succ_le_succ hp)) hz

/-- A bit is added to the lowest bit without a mark, which gets one. -/
theorem reaches_addBit (x : Bool) (hp : p.length ≤ w + 1) (hz : Passable z) :
    Reaches (.leftward (adding x) (field (w + 1) p) (z.reverse ++ '*' :: r))
      (.leftward "find_bit" (z ++ productMark (addBit x p).1 :: field w (addBit x p).2)
        ('*' :: r)) := by
  fun_cases addBit x p with
  | case1 x => exact reaches_star (does_add_blank x) hz
  | case2 y p =>
      rw [field_cons]
      exact reaches_star (does_add_zero y) hz
  | case3 p =>
      have hrule : Does "add1" '0' 'i' .right "return" := by decide
      rw [field_cons]
      exact reaches_star hrule hz
  | case4 p =>
      have hrule : Does "add1" '1' 'o' .left "carry" := by decide
      have hback : Does "return" 'o' 'o' .right "return" := by decide
      rw [field_cons]
      exact reaches_find_bit hrule hback (reaches_carry (Nat.le_of_succ_le_succ hp)) hz

/-- **A bit of the first factor is added.**  The bits of `d` and `q` are done with. -/
theorem reaches_add_bit (x : Bool) (a d q : List Bool) (hp : p.length ≤ w + 1) (r : Word) :
    Reaches
      (.leftward "find_bit" (d.map factorMark ++ bit x :: (a.map bit ++ '=' ::
        (q.map productMark ++ field (w + 1) p))) ('*' :: r))
      (.leftward "find_bit" (d.map factorMark ++ factorMark x :: (a.map bit ++ '=' ::
        (q.map productMark ++ productMark (addBit x p).1 :: field w (addBit x p).2)))
        ('*' :: r)) := by
  have hz : Passable (d.map factorMark ++
      factorMark x :: (a.map bit ++ '=' :: q.map productMark)) :=
    passable_append (passable_map does_return_factor d) (List.forall_mem_cons.mpr
      ⟨does_return_factor x, passable_append (passable_map (by decide) a)
        (List.forall_mem_cons.mpr ⟨by decide, passable_map (by decide) q⟩)⟩)
  calc
    Reaches _ (.leftward "find_bit" (bit x :: (a.map bit ++ '=' ::
        (q.map productMark ++ field (w + 1) p))) ((d.map factorMark).reverse ++ '*' :: r)) :=
      Strip.sweep_left (by decide) (by simp)
    Reaches _ (.leftward (bringing x) (a.map bit ++ '=' ::
        (q.map productMark ++ field (w + 1) p))
        (factorMark x :: ((d.map factorMark).reverse ++ '*' :: r))) :=
      Strip.reaches_left (does_take x) (by simp)
    Reaches _ (.leftward (bringing x) ('=' :: (q.map productMark ++ field (w + 1) p))
        ((a.map bit).reverse ++ factorMark x :: ((d.map factorMark).reverse ++ '*' :: r))) :=
      Strip.sweep_left (does_bring x) (by simp)
    Reaches _ (.leftward (adding x) (q.map productMark ++ field (w + 1) p)
        ('=' :: ((a.map bit).reverse ++ factorMark x ::
          ((d.map factorMark).reverse ++ '*' :: r)))) :=
      Strip.reaches_left (does_cross x) (by simp [field_ne_nil])
    Reaches _ (.leftward (adding x) (field (w + 1) p)
        ((q.map productMark).reverse ++ '=' :: ((a.map bit).reverse ++ factorMark x ::
          ((d.map factorMark).reverse ++ '*' :: r)))) :=
      Strip.sweep_left (does_skip x) (field_ne_nil _ _)
    _ = .leftward (adding x) (field (w + 1) p) ((d.map factorMark ++
        factorMark x :: (a.map bit ++ '=' :: q.map productMark)).reverse ++ '*' :: r) := by
      simp
    Reaches _ (.leftward "find_bit" ((d.map factorMark ++
        factorMark x :: (a.map bit ++ '=' :: q.map productMark)) ++
          productMark (addBit x p).1 :: field w (addBit x p).2) ('*' :: r)) :=
      reaches_addBit x hp hz
    _ = _ := by simp

/-- **The first factor is added to the product.**  The bits of `u` have been added to, those of `v`
have at most got a carry. -/
theorem exists_reaches_add (ha : a.length ≤ w) (hp : p.length ≤ w)
    (hvalue : value a + value p < 2 ^ w) (d q : List Bool) (r : Word) :
    ∃ u v, u ++ v = add a p ∧ Reaches
      (.leftward "find_bit" (d.map factorMark ++ (a.map bit ++ '=' ::
        (q.map productMark ++ field w p))) ('*' :: r))
      (.leftward "find_bit" ((d ++ a).map factorMark ++ '=' ::
        ((q ++ u).map productMark ++ field (w - u.length) v)) ('*' :: r)) := by
  induction a generalizing d q p w with
  | nil =>
      refine ⟨[], p, rfl, ?_⟩
      rw [List.append_nil, List.append_nil]
      exact .refl
  | cons x a ih =>
      cases w with
      | zero => simp at ha
      | succ w =>
          obtain ⟨hbit, hrest⟩ := Binary.value_add_lt hvalue
          have hstep := reaches_add_bit x a d q hp r
          obtain ⟨u, v, huv, hreaches⟩ := ih (Nat.le_of_succ_le_succ ha)
            (Binary.length_addBit_le hp hbit) hrest (d ++ [x]) (q ++ [(addBit x p).1])
          refine ⟨(addBit x p).1 :: u, v, congrArg ((addBit x p).1 :: ·) huv, hstep.trans ?_⟩
          rw [List.length_cons, Nat.add_sub_add_right]
          simpa using hreaches

/-- The marks are taken away. -/
theorem reaches_restore (hv : v.length ≤ w) (a u : List Bool) (r : Word) :
    Reaches
      (.leftward "find_bit" (a.map factorMark ++ '=' :: (u.map productMark ++ field w v))
        ('*' :: r))
      ⟨"seek_end", '_' :: replicate (w - v.length) '_',
        ((u ++ v).map bit).reverse ++ '=' :: ((a.map bit).reverse ++ '*' :: r)⟩ :=
  calc
    Reaches _ (.leftward "find_bit" ('=' :: (u.map productMark ++ field w v))
        ((a.map factorMark).reverse ++ '*' :: r)) :=
      Strip.sweep_left (by decide) (by simp)
    Reaches _ ⟨"restore_a", '=' :: (u.map productMark ++ field w v),
        (a.map factorMark).reverse ++ '*' :: r⟩ :=
      Strip.reaches_right (by decide)
    Reaches _ ⟨"restore_a", a.map bit ++ '=' :: (u.map productMark ++ field w v), '*' :: r⟩ :=
      Strip.sweep_right (by decide)
    Reaches _ (.leftward "to_equals" (a.map bit ++ '=' :: (u.map productMark ++ field w v))
        ('*' :: r)) :=
      Strip.reaches_left (x := '*') (by decide) (by simp)
    Reaches _ (.leftward "to_equals" ('=' :: (u.map productMark ++ field w v))
        ((a.map bit).reverse ++ '*' :: r)) :=
      Strip.sweep_left (by decide) (by simp)
    Reaches _ (.leftward "restore_p" (u.map productMark ++ field w v)
        ('=' :: ((a.map bit).reverse ++ '*' :: r))) :=
      Strip.reaches_left (by decide) (by simp [field_ne_nil])
    Reaches _ (.leftward "restore_p" (field w v)
        ((u.map bit).reverse ++ '=' :: ((a.map bit).reverse ++ '*' :: r))) :=
      Strip.sweep_left (by decide) (field_ne_nil w v)
    Reaches _ (.leftward "restore_p" ('_' :: replicate (w - v.length) '_')
        ((v.map bit).reverse ++ ((u.map bit).reverse ++
          '=' :: ((a.map bit).reverse ++ '*' :: r)))) := by
      rw [field_eq hv]
      exact Strip.sweep_left (by decide) (by simp)
    Reaches _ ⟨"seek_end", '_' :: replicate (w - v.length) '_',
        (v.map bit).reverse ++ ((u.map bit).reverse ++
          '=' :: ((a.map bit).reverse ++ '*' :: r))⟩ :=
      Strip.reaches_right (by decide)
    _ = _ := by simp

/-! ### Rounds -/

/-- The lower end of the second factor is looked for. -/
theorem reaches_borrow (a b : List Bool) (l r : Word) :
    Reaches ⟨"seek_end", l, (a.map bit).reverse ++ '*' :: ((b.map bit).reverse ++ '_' :: r)⟩
      (.leftward "borrow" (b.map bit ++ '*' :: (a.map bit ++ l)) ('_' :: r)) :=
  calc
    Reaches _ ⟨"seek_end", a.map bit ++ l, '*' :: ((b.map bit).reverse ++ '_' :: r)⟩ :=
      Strip.sweep_right (by decide)
    Reaches _ ⟨"seek_end", '*' :: (a.map bit ++ l), (b.map bit).reverse ++ '_' :: r⟩ :=
      Strip.reaches_right (by decide)
    Reaches _ (.leftward "seek_end" ('_' :: (b.map bit ++ '*' :: (a.map bit ++ l))) r) :=
      Strip.sweep_right (by decide)
    Reaches _ (.leftward "borrow" (b.map bit ++ '*' :: (a.map bit ++ l)) ('_' :: r)) :=
      Strip.reaches_left (by decide) (by simp)

/-- One is taken from the second factor. -/
theorem reaches_dec (hb : value b ≠ 0) (l r : Word) :
    Reaches (.leftward "borrow" (b.map bit ++ '*' :: l) r)
      (.leftward "to_star" ('*' :: l) (((dec b).map bit).reverse ++ r)) := by
  induction b generalizing r with
  | nil => exact absurd rfl hb
  | cons x b ih =>
      cases x with
      | true =>
          calc
            Reaches _ (.leftward "to_star" (b.map bit ++ '*' :: l) ('0' :: r)) :=
              Strip.reaches_left (by decide) (by simp)
            Reaches _ (.leftward "to_star" ('*' :: l) ((b.map bit).reverse ++ '0' :: r)) :=
              Strip.sweep_left (by decide) (by simp)
            _ = _ := by simp [dec, bit]
      | false =>
          have hb' : value b ≠ 0 := by simpa using hb
          calc
            Reaches _ (.leftward "borrow" (b.map bit ++ '*' :: l) ('1' :: r)) :=
              Strip.reaches_left (by decide) (by simp)
            Reaches _ (.leftward "to_star" ('*' :: l) (((dec b).map bit).reverse ++ '1' :: r)) :=
              ih hb' ('1' :: r)
            _ = _ := by simp [dec, bit]

/-- **One round**: the second factor gets one less, and the product gets the first factor more. -/
theorem reaches_round (ha : a.length ≤ w) (hp : p.length ≤ w) (hb : value b ≠ 0)
    (hvalue : value a + value p < 2 ^ w) (r : Word) :
    Reaches (.leftward "borrow" (b.map bit ++ '*' :: (a.map bit ++ '=' :: field w p)) ('_' :: r))
      (.leftward "borrow" ((dec b).map bit ++ '*' :: (a.map bit ++ '=' :: field w (add a p)))
        ('_' :: r)) := by
  obtain ⟨u, v, huv, hadd⟩ :=
    exists_reaches_add ha hp hvalue [] [] (((dec b).map bit).reverse ++ '_' :: r)
  have hlen : u.length + v.length ≤ w := by
    rw [← List.length_append, huv]
    exact Binary.length_add_le ha hp hvalue
  have hv : v.length ≤ w - u.length := by omega
  have hfield : field w (add a p) =
      (add a p).map bit ++ '_' :: replicate (w - u.length - v.length) '_' := by
    rw [← huv, field_eq (by rw [List.length_append]; exact hlen), List.length_append, Nat.sub_sub]
  calc
    Reaches _ (.leftward "to_star" ('*' :: (a.map bit ++ '=' :: field w p))
        (((dec b).map bit).reverse ++ '_' :: r)) :=
      reaches_dec hb _ _
    Reaches _ (.leftward "find_bit" (a.map bit ++ '=' :: field w p)
        ('*' :: (((dec b).map bit).reverse ++ '_' :: r))) :=
      Strip.reaches_left (by decide) (by simp)
    Reaches _ (.leftward "find_bit" (a.map factorMark ++ '=' ::
        (u.map productMark ++ field (w - u.length) v))
        ('*' :: (((dec b).map bit).reverse ++ '_' :: r))) :=
      hadd
    Reaches _ ⟨"seek_end", '_' :: replicate (w - u.length - v.length) '_',
        ((u ++ v).map bit).reverse ++ '=' :: ((a.map bit).reverse ++
          '*' :: (((dec b).map bit).reverse ++ '_' :: r))⟩ :=
      reaches_restore hv a u _
    Reaches _ ⟨"seek_end", (u ++ v).map bit ++ '_' :: replicate (w - u.length - v.length) '_',
        '=' :: ((a.map bit).reverse ++ '*' :: (((dec b).map bit).reverse ++ '_' :: r))⟩ :=
      Strip.sweep_right (by decide)
    Reaches _ ⟨"seek_end", '=' :: field w (add a p),
        (a.map bit).reverse ++ '*' :: (((dec b).map bit).reverse ++ '_' :: r)⟩ := by
      rw [hfield, huv]
      exact Strip.reaches_right (by decide)
    Reaches _ (.leftward "borrow"
        ((dec b).map bit ++ '*' :: (a.map bit ++ '=' :: field w (add a p))) ('_' :: r)) :=
      reaches_borrow a (dec b) _ r

/-- **Repeated addition.**  Round by round the second factor goes down to 0, and then the product
holds the first factor as often. -/
theorem exists_reaches_wipe_b (ha : a.length ≤ w) (hp : p.length ≤ w)
    (hvalue : value a * value b + value p < 2 ^ w) (r : Word) :
    ∃ p', p'.length ≤ w ∧ value p' = value a * value b + value p ∧ Reaches
      (.leftward "borrow" (b.map bit ++ '*' :: (a.map bit ++ '=' :: field w p)) ('_' :: r))
      ⟨"wipe_b", '*' :: (a.map bit ++ '=' :: field w p'), replicate b.length '1' ++ '_' :: r⟩ := by
  induction hn : value b generalizing b p with
  | zero =>
      refine ⟨p, hp, by rw [Nat.mul_zero, Nat.zero_add], ?_⟩
      rw [Binary.eq_replicate_of_value_eq_zero hn, List.map_replicate, List.length_replicate]
      exact (Strip.sweep_left_replicate (y := '1') (by decide) b.length (by simp)).trans
        (Strip.reaches_right (by decide))
  | succ n ih =>
      have hb : value b ≠ 0 := by omega
      have hdec : value (dec b) = n := by
        have := Binary.value_dec hb
        omega
      rw [hn, Nat.mul_succ] at hvalue
      have hround : value a + value p < 2 ^ w := by omega
      have hrest : value a * value (dec b) + value (add a p) < 2 ^ w := by
        rw [hdec, Binary.value_add]
        omega
      obtain ⟨p', hp', hvalue', hreaches⟩ :=
        ih (Binary.length_add_le ha hp hround) hrest hdec
      refine ⟨p', hp', ?_, ?_⟩
      · rw [hvalue', Binary.value_add, Nat.mul_succ]
        omega
      · rw [Binary.length_dec] at hreaches
        exact (reaches_round ha hp hb hround r).trans hreaches

/-! ### The end -/

/-- All but the product is erased. -/
theorem reaches_finish (a p : List Bool) (n w : Nat) :
    Reaches ⟨"wipe_b", '*' :: (a.map bit ++ '=' :: field w p), replicate n '1' ++ ['_']⟩
      (.leftward "finish" (field w p) (replicate (a.length + n + 3) '_')) :=
  calc
    Reaches _ (.leftward "wipe_b"
        ('_' :: (replicate n '_' ++ '*' :: (a.map bit ++ '=' :: field w p))) []) :=
      Strip.sweep_right_replicate (by decide) n
    Reaches _ (.leftward "wipe_back"
        (replicate n '_' ++ '*' :: (a.map bit ++ '=' :: field w p)) ['_']) :=
      Strip.reaches_left (by decide) (by simp)
    Reaches _ (.leftward "wipe_back" ('*' :: (a.map bit ++ '=' :: field w p))
        (replicate n '_' ++ ['_'])) :=
      Strip.sweep_left_replicate (by decide) n (by simp)
    Reaches _ (.leftward "wipe_a" (a.map bit ++ '=' :: field w p)
        ('_' :: (replicate n '_' ++ ['_']))) :=
      Strip.reaches_left (by decide) (by simp)
    Reaches _ (.leftward "wipe_a" ('=' :: field w p)
        ((a.map fun _ => '_').reverse ++ '_' :: (replicate n '_' ++ ['_']))) :=
      Strip.sweep_left (by decide) (by simp)
    Reaches _ (.leftward "finish" (field w p)
        ('_' :: ((a.map fun _ => '_').reverse ++ '_' :: (replicate n '_' ++ ['_'])))) :=
      Strip.reaches_left (by decide) (field_ne_nil w p)
    _ = _ := by
      have hlen : a.length + n + 3 = a.length + 1 + (n + 1) + 1 := by omega
      rw [List.map_const', List.reverse_replicate, Strip.replicate_append_cons,
        Strip.replicate_append_cons, List.append_nil, List.replicate_append_replicate, hlen]
      rfl

/-- A strip on which binary multiplication has accepted with a number. -/
structure Holds (n : Nat) (u : Strip) : Prop where
  state : u.state = "done"
  stuck : u.Stuck binaryMultiplication
  cells : ∃ p, p ≠ [] ∧ value p = n ∧
    ∃ i j, u.cells = replicate i '_' ++ numeral p ++ replicate j '_'

/-- An empty product is written as 0, any other stays as it is. -/
theorem exists_holds (w n : Nat) (p : List Bool) :
    ∃ u, Reaches (.leftward "finish" (field w p) (replicate n '_')) u ∧ Holds (value p) u := by
  cases p with
  | nil =>
      refine ⟨⟨"done", replicate w '_', '0' :: replicate n '_'⟩, Strip.reaches_stay (by decide), rfl,
        Strip.stuck_of_firstRule (by decide), [false], by simp, rfl, w, n, ?_⟩
      rw [Strip.cells, List.reverse_replicate, List.append_assoc]
      rfl
  | cons x p =>
      refine ⟨⟨"done", p.map bit ++ replicate (w - p.length) '_', bit x :: replicate n '_'⟩, ?_, rfl,
        Strip.stuck_of_firstRule (firstRule_done x), x :: p, by simp, rfl, w - p.length, n, ?_⟩
      · rw [field, List.length_cons, Nat.add_sub_add_right]
        exact Strip.reaches_stay (does_finish x)
      · simp [Strip.cells, numeral]

/-! ### The whole run -/

/-- The product gets its place, to the left of the first factor. -/
theorem reaches_seek_end (ha : a ≠ []) (w : Nat) (r : Word) :
    Reaches ⟨"start", replicate (w + 2) '_', numeral a ++ r⟩
      ⟨"seek_end", '=' :: field w [], numeral a ++ r⟩ := by
  obtain ⟨x, z, hz⟩ := Binary.exists_numeral_eq_cons ha
  rw [hz]
  calc
    Reaches (.leftward "start" (bit x :: replicate (w + 2) '_') (z ++ r))
        (.leftward "open" ('_' :: replicate (w + 1) '_') (bit x :: (z ++ r))) :=
      Strip.reaches_left (does_start x) (by simp)
    Reaches _ ⟨"seek_end", '=' :: field w [], bit x :: (z ++ r)⟩ :=
      Strip.reaches_right (by decide)

/-- Binary multiplication comes to the product of any two numbers. -/
theorem exists_reaches_holds (ha : a ≠ []) (b : List Bool) :
    ∃ u, Reaches ⟨"start", replicate (a.length + b.length + 2) '_',
      (numeral a ++ '*' :: numeral b) ++ ['_']⟩ u ∧ Holds (value a * value b) u := by
  have hproduct : value a * value b < 2 ^ (a.length + b.length) := by
    rw [Nat.pow_add]
    exact Nat.mul_lt_mul'' (Binary.value_lt a) (Binary.value_lt b)
  obtain ⟨p, -, hvalue, hrounds⟩ := exists_reaches_wipe_b (a := a) (b := b) (p := [])
    (Nat.le_add_right a.length b.length) (Nat.zero_le _) hproduct []
  obtain ⟨u, hend, hu⟩ := exists_holds (a.length + b.length) (a.length + b.length + 3) p
  rw [hvalue] at hu
  refine ⟨u, ?_, hu⟩
  rw [List.append_assoc]
  calc
    Reaches _ ⟨"seek_end", '=' :: field (a.length + b.length) [],
        numeral a ++ '*' :: (numeral b ++ ['_'])⟩ :=
      reaches_seek_end ha _ _
    Reaches _ (.leftward "borrow" (b.map bit ++ '*' :: (a.map bit ++
        '=' :: field (a.length + b.length) [])) ['_']) :=
      reaches_borrow a b _ []
    Reaches _ ⟨"wipe_b", '*' :: (a.map bit ++ '=' :: field (a.length + b.length) p),
        replicate b.length '1' ++ ['_']⟩ :=
      hrounds
    Reaches _ (.leftward "finish" (field (a.length + b.length) p)
        (replicate (a.length + b.length + 3) '_')) :=
      reaches_finish a p b.length _
    Reaches _ u := hend

/-- **Binary multiplication multiplies.**  On two binary numbers with a star between them it halts,
with any budget beyond the steps to the halt and whether it looks for loops or not; it accepts, and
leaves the binary number of their product. -/
theorem multiplies (A B : Word) (hA : IsBinary A) (hB : IsBinary B)
    (hsize : A.length + B.length < 1099511627776) :
    ∃ p, named "Binary Multiplication" = .ok p ∧ p.HaltsOn (A ++ '*' :: B) fun e =>
      e.halt = .accepted ∧ e.finalState = "done" ∧ ∃ w, e.finalTapes = [w] ∧ IsBinary w ∧
        Nat.ofDigitChars 2 w 0 = Nat.ofDigitChars 2 A 0 * Nat.ofDigitChars 2 B 0 := by
  obtain ⟨a, ha, rfl⟩ := Binary.exists_eq_numeral hA
  obtain ⟨b, -, rfl⟩ := Binary.exists_eq_numeral hB
  rw [Binary.length_numeral, Binary.length_numeral] at hsize
  obtain ⟨u, hreaches, hdone, hstuck, p, hp, hvalue, i, j, hcells⟩ := exists_reaches_holds ha b
  have hroom : a.length + b.length + 2 + (numeral a ++ '*' :: numeral b).length + 1 <
      4398046511104 := by
    rw [List.length_append, List.length_cons, Binary.length_numeral, Binary.length_numeral]
    omega
  have hhalts := Program.haltsOn_of_reaches wellFormed_binaryMultiplication rfl rfl hroom
    hreaches hstuck
  have hfinal : u.state ∈ binaryMultiplication.finals := by
    rw [hdone]
    decide
  have hbinary := Binary.isBinary_numeral hp
  refine ⟨binaryMultiplication, named_binaryMultiplication,
    hhalts.mono fun e ⟨hhalt, hstate, htapes⟩ => ?_⟩
  refine ⟨hhalt.trans (if_pos hfinal), hstate.trans hdone, numeral p,
    htapes i (numeral p) j hcells hbinary.trimmed, hbinary, ?_⟩
  rw [Binary.ofDigitChars_numeral, Binary.ofDigitChars_numeral, Binary.ofDigitChars_numeral, hvalue]

/-- Two, with a zero before it, times three is six. -/
theorem multiplies_two_three : IsBinary ['0', '1', '0'] ∧ IsBinary ['1', '1'] ∧
    ['0', '1', '0'].length + ['1', '1'].length < 1099511627776 ∧
    ∃ p, named "Binary Multiplication" = .ok p ∧
      p.HaltsOn ['0', '1', '0', '*', '1', '1'] fun e =>
        e.halt = .accepted ∧ e.finalState = "done" ∧ ∃ w, e.finalTapes = [w] ∧ IsBinary w ∧
          Nat.ofDigitChars 2 w 0 = 6 :=
  have hA : IsBinary ['0', '1', '0'] := by decide
  have hB : IsBinary ['1', '1'] := by decide
  ⟨hA, hB, by decide, multiplies ['0', '1', '0'] ['1', '1'] hA hB (by decide)⟩

end TapeMachine.Library.BinaryMultiplication
