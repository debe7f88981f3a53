import Mathlib

/-!
# Pem — texts that hold blocks, read one block after another

A text is a list of letters; `decode` finds its first block and what follows it, whatever stands
before.  A loop over the blocks of a text (`each`) ends because what follows is shorter than the
text, and nothing else is assumed for it.  That a block that was written is found again
(`RoundTrips`) is a separate assumption, made for the types of blocks a program writes (`Faithful`).

Letters and the content of blocks are arbitrary types.
-/

namespace CertsManager
namespace Pem

structure Block (δ : Type) where
  type : String
  headers : List (String × String)
  bytes : δ
  deriving DecidableEq

structure Codec (α δ : Type) where
  encode : Block δ → List α
  decode : List α → Option (Block δ × List α)
  decode_shorter : ∀ {t b rest}, decode t = some (b, rest) → rest.length < t.length

namespace Codec

variable {α δ σ ε : Type}

/-- The blocks of a text. -/
def blocks (c : Codec α δ) (t : List α) : List (Block δ) :=
  match _h : c.decode t with
  | none => []
  | some (b, rest) => b :: c.blocks rest
termination_by t.length
decreasing_by exact c.decode_shorter _h

/-- The loop `for { block, rest = decode(rest); if block == nil { break }; ... }`: the body goes on
with a state, or returns. -/
def each (c : Codec α δ) (body : σ → Block δ → Except ε σ) (s : σ) (t : List α) : Except ε σ :=
  match _h : c.decode t with
  | none => .ok s
  | some (b, rest) =>
      match body s b with
      | .error result => .error result
      | .ok s => c.each body s rest
termination_by t.length
decreasing_by exact c.decode_shorter _h

/-- A block that is written is found again, before anything. -/
def RoundTrips (c : Codec α δ) (b : Block δ) : Prop :=
  ∀ rest, c.decode (c.encode b ++ rest) = some (b, rest)

/-- Blocks of some types are found again when they are written: those without headers, and those
that were read. -/
structure Faithful (c : Codec α δ) (types : List String) : Prop where
  plain : ∀ type ∈ types, ∀ bytes, c.RoundTrips ⟨type, [], bytes⟩
  read : ∀ t, ∀ b ∈ c.blocks t, b.type ∈ types → c.RoundTrips b

variable {c : Codec α δ}

theorem blocks_of_none {t : List α} (h : c.decode t = none) : c.blocks t = [] := by
  rw [blocks]
  split
  · rfl
  · rename_i hsome
    cases h.symm.trans hsome

theorem blocks_of_some {t rest : List α} {b : Block δ} (h : c.decode t = some (b, rest)) :
    c.blocks t = b :: c.blocks rest := by
  rw [blocks]
  split
  · rename_i hnone
    cases h.symm.trans hnone
  · rename_i hsome
    cases h.symm.trans hsome
    rfl

theorem blocks_nil : c.blocks [] = [] := by
  cases h : c.decode [] with
  | none => exact blocks_of_none h
  | some p => exact absurd (c.decode_shorter h) (Nat.not_lt_zero _)

/-- A loop over a text is a loop over the list of its blocks. -/
theorem each_eq_foldlM (body : σ → Block δ → Except ε σ) (s : σ) (t : List α) :
    c.each body s t = (c.blocks t).foldlM body s := by
  -- by induction on the length of the text, as the loop ends
  induction hn : t.length using Nat.strongRecOn generalizing s t with
  | ind n ih =>
      rw [each]
      split
      · rename_i hnone
        rw [blocks_of_none hnone]
        rfl
      · rename_i b rest hsome
        rw [blocks_of_some hsome, List.foldlM_cons]
        cases body s b with
        | error result => rfl
        | ok s' => exact ih rest.length (hn ▸ c.decode_shorter hsome) s' rest rfl

theorem blocks_encode {b : Block δ} (hb : c.RoundTrips b) (rest : List α) :
    c.blocks (c.encode b ++ rest) = b :: c.blocks rest :=
  blocks_of_some (hb rest)

/-- Blocks written one after another are found in their order. -/
theorem blocks_flatMap_encode {bs : List (Block δ)} (hbs : ∀ b ∈ bs, c.RoundTrips b) :
    c.blocks (bs.flatMap c.encode) = bs := by
  induction bs with
  | nil => exact blocks_nil
  | cons b bs ih =>
      rw [List.flatMap_cons, blocks_encode (hbs b List.mem_cons_self),
        ih fun b' hb' => hbs b' (List.mem_cons_of_mem _ hb')]

/-- Texts whose letters are blocks. -/
def ofBlocks (δ : Type) : Codec (Block δ) δ where
  encode b := [b]
  decode
    | [] => none
    | b :: rest => some (b, rest)
  decode_shorter {t b rest} h := by
    cases t with
    | nil => cases h
    | cons b' t =>
        cases h
        exact Nat.lt_succ_self _

theorem ofBlocks_faithful (types : List String) : (ofBlocks δ).Faithful types where
  plain _ _ _ _ := rfl
  read _ _ _ _ _ := rfl

theorem blocks_ofBlocks (bs : List (Block δ)) : (ofBlocks δ).blocks bs = bs := by
  induction bs with
  | nil => exact blocks_nil
  | cons b bs ih =>
      rw [blocks_of_some (show (ofBlocks δ).decode (b :: bs) = some (b, bs) from rfl), ih]

/-! ## Two shapes of loop -/

/-- A loop that returns at the first block of a kind. -/
theorem foldlM_first (p : Block δ → Bool) (result : Block δ → ε) (bs : List (Block δ)) :
    bs.foldlM (fun _ b => if p b then .error (result b) else .ok ()) () =
      match bs.find? p with
      | some b => Except.error (result b)
      | none => .ok () := by
  induction bs with
  | nil => rfl
  | cons b bs ih =>
      by_cases hp : p b = true
      · simp [List.foldlM_cons, hp]
        rfl
      · simp [List.foldlM_cons, hp, ← ih]
        rfl

/-- A loop that never returns is a fold. -/
theorem foldlM_ok (f : σ → Block δ → σ) (s : σ) (bs : List (Block δ)) :
    bs.foldlM (fun s b => (.ok (f s b) : Except ε σ)) s = .ok (bs.foldl f s) := by
  induction bs generalizing s with
  | nil => rfl
  | cons b bs ih => exact ih (f s b)

end Codec
end Pem
end CertsManager
