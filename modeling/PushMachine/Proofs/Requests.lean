import PushMachine.Proofs.RandomLeaves
/-!
# What random code asks of its source

A draw takes floats and numbers below some bound, and a generator takes draws, reads the names that were minted and
mints new ones.  `Asks ok` says that something is put together in this way and that each bound it asks for satisfies
`ok`; there is a number below a bound only if the bound is positive.  Two things follow for every generator of this form:
the names it leaves are the old ones and new ones at the end, none of them twice (`Generator.Asks.mints`), and if no bound
is zero then it fails only where no new name is found or an integer is too long to be written
(`Generator.Asks.ok_or_starved`).
-/
namespace PushMachine

variable {ρ α β : Type}

/-! ## Minting -/

namespace Supply

/-- **Nothing happened but minting**: the names are the old ones and then some that are minted and differ from the old
ones and from each other. -/
structure Mints (s s' : Supply ρ) : Prop where
  minted : ∃ new, s'.minted = s.minted ++ new ∧ (∀ name ∈ new, IsMinted name ∧ name ∉ s.minted) ∧ new.Nodup

namespace Mints

variable {s s₁ s₂ s₃ : Supply ρ}

theorem of_minted_eq (h : s₂.minted = s₁.minted) : s₁.Mints s₂ :=
  ⟨[], by rw [h, List.append_nil], List.forall_mem_nil _, .nil⟩

theorem refl (s : Supply ρ) : s.Mints s := of_minted_eq rfl

theorem single {name : String} {source : ρ} (hname : IsMinted name) (hnew : name ∉ s.minted) :
    s.Mints ⟨s.minted ++ [name], source⟩ :=
  ⟨[name], rfl, List.forall_mem_singleton.2 ⟨hname, hnew⟩, by simp⟩

theorem trans (h : s₁.Mints s₂) (h' : s₂.Mints s₃) : s₁.Mints s₃ := by
  obtain ⟨new, he, hn, hd⟩ := h.minted
  obtain ⟨new', he', hn', hd'⟩ := h'.minted
  have hapart : ∀ name ∈ new', name ∉ s₁.minted ∧ name ∉ new := fun name hname => by
    have hnot := (hn' name hname).2
    rw [he, List.mem_append, not_or] at hnot
    exact hnot
  refine ⟨new ++ new', by rw [he', he, List.append_assoc], List.forall_mem_append.2 ⟨hn, fun name hname => ?_⟩, ?_⟩
  · exact ⟨(hn' name hname).1, (hapart name hname).1⟩
  · refine List.nodup_append.2 ⟨hd, hd', fun x hx y hy hxy => ?_⟩
    exact (hapart y hy).2 (hxy ▸ hx)

theorem isPrefix (h : s₁.Mints s₂) : s₁.minted <+: s₂.minted := by
  obtain ⟨new, he, -⟩ := h.minted
  exact ⟨new, he.symm⟩

theorem nodup (h : s₁.Mints s₂) (hs : s₁.minted.Nodup) : s₂.minted.Nodup := by
  obtain ⟨new, he, hn, hd⟩ := h.minted
  rw [he]
  exact List.nodup_append.2 ⟨hs, hd, fun x hx y hy hxy => (hn y hy).2 (hxy ▸ hx)⟩

theorem isMinted (h : s₁.Mints s₂) (hs : ∀ name ∈ s₁.minted, IsMinted name) : ∀ name ∈ s₂.minted, IsMinted name := by
  obtain ⟨new, he, hn, -⟩ := h.minted
  rw [he]
  exact List.forall_mem_append.2 ⟨hs, fun name hname => (hn name hname).1⟩

end Mints

variable [RandomSource ρ]

/-- **A name that is found is new, and it is the one that is added.** -/
theorem mint_eq_ok {name : String} {s' : Supply ρ} : ∀ {tries : Nat} {s : Supply ρ},
    mint tries s = (.ok name, s') →
    IsMinted name ∧ name ∉ s.minted ∧ s'.minted = s.minted ++ [name]
  | 0,         s, h => by cases h
  | tries + 1, s, h => by
    have hname := isMinted_drawName s.source
    rw [mint] at h
    dsimp only at h
    generalize drawName s.source = drawn at hname h
    obtain ⟨drawnName, source⟩ := drawn
    dsimp only at hname h
    split at h
    · have hrest := mint_eq_ok h
      exact hrest
    · rename_i hnew
      cases h
      exact ⟨hname, by simpa using hnew, rfl⟩

/-- A search that fails adds nothing. -/
theorem mint_eq_error {e : Fault} {s' : Supply ρ} : ∀ {tries : Nat} {s : Supply ρ}, mint tries s = (.error e, s') →
    e = .namesExhausted ∧ s'.minted = s.minted
  | 0,         s, h => by
    cases h
    exact ⟨rfl, rfl⟩
  | tries + 1, s, h => by
    rw [mint] at h
    dsimp only at h
    generalize drawName s.source = drawn at h
    obtain ⟨drawnName, source⟩ := drawn
    dsimp only at h
    split at h
    · have hrest := mint_eq_error h
      exact hrest
    · cases h

theorem newName_eq_ok {name : String} {s s' : Supply ρ} (h : newName s = (.ok name, s')) :
    IsMinted name ∧ name ∉ s.minted ∧ s'.minted = s.minted ++ [name] := mint_eq_ok h

/-- The first name is new. -/
theorem exists_newName_eq {s : Supply ρ} (h : s.minted = []) : ∃ name s', newName s = (.ok name, s') := by
  show ∃ name s', mint (999 + 1) s = (.ok name, s')
  rw [mint]
  dsimp only
  rw [h, if_neg (by simp)]
  exact ⟨_, _, rfl⟩

theorem newName_mints (s : Supply ρ) : s.Mints (newName s).2 := by
  cases h : newName s with
  | mk r s' =>
    cases r with
    | ok name =>
      obtain ⟨hname, hnew, he⟩ := newName_eq_ok h
      have hgrown : s.Mints ⟨s.minted ++ [name], s'.source⟩ := .single hname hnew
      exact hgrown.trans (.of_minted_eq he)
    | error e => exact .of_minted_eq (mint_eq_error h).2

end Supply

/-! ## Draws -/

section Draws

variable [RandomSource ρ]

/-- **A draw that takes floats, and numbers below bounds that are `ok`.** -/
inductive Draw.Asks (ok : Nat → Prop) : {α : Type} → (ρ → α × ρ) → Prop
  | pure {α : Type} (a : α) : Asks ok fun s => (a, s)
  | number {n : Nat} : ok n → Asks ok (below n)
  | float : Asks ok unit
  | bind {α β : Type} {d : ρ → α × ρ} {f : α → ρ → β × ρ} : Asks ok d → (∀ a, Asks ok (f a)) →
      Asks ok fun s => f (d s).1 (d s).2

namespace Draw

variable {ok : Nat → Prop}

theorem Asks.map {d : ρ → α × ρ} (hd : Asks ok d) (f : α → β) : Asks ok fun s => (f (d s).1, (d s).2) :=
  hd.bind fun a => .pure (f a)

theorem asks_between {low high : Int} (h : ok (high - low + 1).toNat) : Asks ok (between low high : ρ → Int × ρ) :=
  (Asks.number h).map fun r => low + r

theorem asks_uniform (low high : Float) : Asks ok (uniform low high : ρ → Float × ρ) :=
  Asks.float.map fun u => low + (high - low) * u

theorem asks_chance (probability : Float) : Asks ok (chance probability : ρ → Bool × ρ) :=
  Asks.float.map fun u => decide (u < probability)

variable (hok : ∀ n, 0 < n → ok n)

include hok

theorem asks_choose (x : α) (xs : List α) : Asks ok (choose x xs : ρ → α × ρ) :=
  (Asks.number (hok _ xs.length.succ_pos)).map fun i => (x :: xs).getD i x

theorem asks_shuffleFrom : ∀ (i : Nat) (xs : Array α), Asks ok (shuffleFrom i xs : ρ → Array α × ρ)
  | 0,     xs => .pure xs
  | i + 1, xs => (Asks.number (hok _ (i + 1).succ_pos)).bind fun j => asks_shuffleFrom i (xs.swapIfInBounds (i + 1) j)

theorem asks_shuffle (xs : List α) : Asks ok (shuffle xs : ρ → List α × ρ) :=
  (asks_shuffleFrom hok (xs.length - 1) xs.toArray).map Array.toList

theorem asks_drawLetters : ∀ n : Nat, Asks ok (Supply.drawLetters n : ρ → List Char × ρ)
  | 0     => .pure []
  | n + 1 => (Asks.number (hok 26 (by decide))).bind fun i =>
    (asks_drawLetters n).map fun cs => Char.ofNat ('a'.toNat + i) :: cs

theorem asks_drawName : Asks ok (Supply.drawName : ρ → String × ρ) :=
  (asks_drawLetters hok Supply.nameLength).map fun cs => String.ofList ('_' :: cs)

end Draw

/-! ## Generators -/

namespace Generator

/-- Read the names that were minted, and go on. -/
def withNames (f : List String → Generator ρ α) : Generator ρ α := fun s => f s.minted s

/-- **A generator that is made of such draws, of integers that it writes and, if `names` allows that, of new names.**  It
fails for want of a number only where the bound zero is `ok`.  What follows a value is asked for only where the value can
be returned. -/
inductive Asks (ok : Nat → Prop) (names : Bool) : {α : Type} → Generator ρ α → Prop
  | pure {α : Type} (a : α) : Asks ok names (Pure.pure a)
  | written (n : Int) : Asks ok names (ofExcept (Tree.ofInteger n))
  | empty {α : Type} : ok 0 → Asks ok names (fail .emptyRange : Generator ρ α)
  | draw {α : Type} {d : ρ → α × ρ} : Draw.Asks ok d → Asks ok names (draw d)
  | newName : names = true → Draw.Asks ok (Supply.drawName : ρ → String × ρ) → Asks ok names Supply.newName
  | withNames {α : Type} {f : List String → Generator ρ α} : (∀ minted, Asks ok names (f minted)) →
      Asks ok names (withNames f)
  | bind {α β : Type} {g : Generator ρ α} {f : α → Generator ρ β} : Asks ok names g →
      (∀ a, (∃ s s', g s = (.ok a, s')) → Asks ok names (f a)) → Asks ok names (g >>= f)

/-- No new name was found, and the generator ended there. -/
def Starved (s : Supply ρ) (r : Except Fault α × Supply ρ) : Prop :=
  ∃ s₁ : Supply ρ, s.Mints s₁ ∧ Supply.newName s₁ = (.error .namesExhausted, r.2) ∧ r.1 = .error .namesExhausted

variable {ok : Nat → Prop} {names : Bool}

theorem Asks.map {g : Generator ρ α} (hg : g.Asks ok names) (f : α → β) : (f <$> g).Asks ok names := by
  rw [map_eq_pure_bind]
  exact hg.bind fun a _ => .pure (f a)

theorem Asks.mapM {f : α → Generator ρ β} (hf : ∀ a, (f a).Asks ok names) :
    ∀ as : List α, (as.mapM f).Asks ok names
  | []      => by
    rw [List.mapM_nil]
    exact .pure []
  | a :: as => by
    rw [List.mapM_cons]
    exact (hf a).bind fun b _ => (Asks.mapM hf as).bind fun bs _ => .pure (b :: bs)

/-- **A generator of this form only mints.** -/
theorem Asks.mints {g : Generator ρ α} (hg : g.Asks ok names) (s : Supply ρ) : s.Mints (g s).2 := by
  induction hg generalizing s with
  | pure | empty => exact .refl s
  | written n => cases Tree.ofInteger n <;> exact .refl s
  | draw => exact .of_minted_eq rfl
  | newName => exact Supply.newName_mints s
  | withNames _ ih => exact ih s.minted s
  | @bind _ _ g f _ _ ihg ihf =>
    have hfirst := ihg s
    rcases h : g s with ⟨e | a, s₁⟩
    · rw [bind_of_error h]
      rwa [h] at hfirst
    · rw [bind_of_ok h]
      rw [h] at hfirst
      exact hfirst.trans (ihf a ⟨s, s₁, h⟩ s₁)

/-- **It returns a value, or no new name was found**, or an integer was too long to be written, unless a bound may be
zero. -/
theorem Asks.ok_or_starved {g : Generator ρ α} (hg : g.Asks ok names) (hzero : ¬ ok 0) (s : Supply ρ) :
    (∃ a s', g s = (.ok a, s')) ∨ names = true ∧ Starved s (g s) ∨ (g s).1 = .error .integerTooLong := by
  induction hg generalizing s with
  | pure a => exact .inl ⟨a, s, rfl⟩
  | written n =>
    cases hn : Tree.ofInteger n with
    | ok t => exact .inl ⟨t, s, rfl⟩
    | error e =>
      obtain ⟨-, rfl⟩ := Tree.ofInteger_eq_error_iff.1 hn
      exact .inr (.inr rfl)
  | draw => exact .inl ⟨_, _, rfl⟩
  | empty h => exact absurd h hzero
  | newName hnames =>
    rcases h : Supply.newName s with ⟨e | name, s'⟩
    · obtain rfl : e = .namesExhausted := (Supply.mint_eq_error h).1
      exact .inr (.inl ⟨hnames, s, .refl s, h, rfl⟩)
    · exact .inl ⟨name, s', rfl⟩
  | withNames _ ih => exact ih s.minted s
  | @bind _ _ g f hg _ ihg ihf =>
    have hfirst := hg.mints s
    rcases ihg s with ⟨a, s₁, ha⟩ | ⟨hnames, s₁, hs, hn, hr⟩ | hr
    · rw [ha] at hfirst
      rw [bind_of_ok ha]
      rcases ihf a ⟨s, s₁, ha⟩ s₁ with hok | ⟨hnames, s₂, hs, hn, hr⟩ | hr
      · exact .inl hok
      · exact .inr (.inl ⟨hnames, s₂, hfirst.trans hs, hn, hr⟩)
      · exact .inr (.inr hr)
    · have he : g s = (.error .namesExhausted, (g s).2) := Prod.ext hr rfl
      rw [bind_of_error he]
      exact .inr (.inl ⟨hnames, s₁, hs, hn, rfl⟩)
    · have he : g s = (.error .integerTooLong, (g s).2) := Prod.ext hr rfl
      rw [bind_of_error he]
      exact .inr (.inr rfl)

end Generator

/-! ## Random code -/

open Generator (Asks)

theorem Supply.asks_newName {ok : Nat → Prop} (hok : ∀ n, 0 < n → ok n) :
    (newName : Generator ρ String).Asks ok true := .newName rfl (Draw.asks_drawName hok)

/-- What `anyName` does with the names that were minted. -/
def Supply.anyNameAmong (probability : Float) : List String → Generator ρ String
  | []            => newName
  | name :: names => do
    let fresh ← Generator.draw (Draw.chance probability)
    if fresh then newName else Generator.draw (Draw.choose name names)

theorem Supply.anyName_eq (probability : Float) :
    (anyName probability : Generator ρ String) = Generator.withNames (anyNameAmong probability) := by
  funext ⟨minted, source⟩
  cases minted with
  | nil => rfl
  | cons name names =>
    rw [Generator.withNames, anyNameAmong, Generator.draw_bind, anyName]
    dsimp only
    split <;> rfl

/-- A name that was minted is chosen only where there is one. -/
theorem Supply.asks_anyName {ok : Nat → Prop} (hok : ∀ n, 0 < n → ok n) (probability : Float) :
    (anyName probability : Generator ρ String).Asks ok true := by
  rw [anyName_eq]
  refine .withNames fun minted => ?_
  cases minted with
  | nil => exact asks_newName hok
  | cons name names =>
    refine (Asks.draw (Draw.asks_chance probability)).bind fun fresh _ => ?_
    split
    · exact asks_newName hok
    · exact .draw (Draw.asks_choose hok name names)

namespace RandomCode

variable {o : Options} {ok : Nat → Prop} (hok : ∀ n, 0 < n → ok n)

include hok

theorem asks_parts {names : Bool} : ∀ (maxParts : Nat) (n : Int),
    (parts maxParts n : Generator ρ (List Int)).Asks ok names
  | 0,            n => .pure [n]
  | 1,            n => .pure [n]
  | maxParts + 2, n => by
    rw [parts]
    split
    · refine (Asks.draw (Draw.asks_between (hok _ (by omega)))).bind fun part _ => ?_
      exact (asks_parts (maxParts + 1) (n - part)).bind fun rest _ => .pure (part :: rest)
    · exact .pure [n]

variable (hinteger : ok (o.maxInteger - o.minInteger + 1).toNat)

include hinteger

theorem asks_constant {k : Kind} (hk : k ∈ constantKinds) (he : o.enables k = true) :
    (constant o k : Generator ρ Tree).Asks ok (o.enables .name) := by
  unfold constant
  split
  · exact (Asks.draw (Draw.asks_between hinteger)).bind fun n _ => .written n
  · exact (Asks.draw (Draw.asks_uniform _ _)).map _
  · exact (Asks.draw (Draw.asks_chance _)).map _
  · -- of the types that have constants only NAME is left
    rename_i hi hf hb
    obtain rfl : k = .name := by revert hk hi hf hb; cases k <;> decide
    rw [he]
    exact (Supply.asks_anyName hok _).map _

variable (hpool : ok (o.instructionTokens.length + (constantKinds.filter o.enables).length))

include hpool

theorem asks_atom : (atom o : Generator ρ Tree).Asks ok (o.enables .name) := by
  unfold atom
  dsimp only
  split
  · rename_i hzero
    rw [hzero] at hpool
    exact .empty hpool
  · rename_i hpos
    refine (Asks.draw (.number hpool)).bind fun i ⟨s, s', hs⟩ => ?_
    cases hs
    split
    · exact .pure _
    · rename_i ht
      have hlt := Draw.below_lt (Nat.pos_of_ne_zero hpos) s.source
      obtain ⟨hk, he⟩ := enabled_getD (List.getElem?_eq_none_iff.1 ht) hlt
      exact asks_constant hok hinteger hk he

theorem asks_treeWithin : ∀ (depth : Nat) (size : Int),
    (treeWithin o depth size : Generator ρ Tree).Asks ok (o.enables .name)
  | 0,         _    => asks_atom hok hinteger hpool
  | depth + 1, size => by
    rw [treeWithin]
    split
    · exact asks_atom hok hinteger hpool
    · refine (asks_parts hok _ (size - 1)).bind fun sizes _ => ?_
      refine (Asks.mapM (asks_treeWithin depth) sizes).bind fun items _ => ?_
      exact (Asks.draw (Draw.asks_shuffle hok items)).bind fun shuffled _ => .pure (Tree.list shuffled)

/-- **Random code of a size asks for nothing but what a constant and a token ask for**, positive bounds apart. -/
theorem asks_ofSize (size : Int) : (ofSize o size : Generator ρ Tree).Asks ok (o.enables .name) :=
  asks_treeWithin hok hinteger hpool size.toNat size

theorem asks_upTo (maxPoints : Int) : (upTo o maxPoints : Generator ρ Tree).Asks ok (o.enables .name) :=
  (Asks.draw (Draw.asks_between (hok _ (by omega)))).bind fun size _ => asks_ofSize hok hinteger hpool size

end RandomCode
end Draws
end PushMachine
