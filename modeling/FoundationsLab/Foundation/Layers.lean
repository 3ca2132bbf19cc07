import FoundationsLab.Foundation.SortedMap

/-! # Layered maps

A map kept as layers, the newest first. The first layer that knows a key decides
about it; a layer says of a key that it was deleted by binding it to `none`. -/

namespace FoundationsLab.Foundation

variable {K V : Type*} [LinearOrder K]

abbrev Layer (K V : Type*) [LinearOrder K] := SortedMap K (Option V)

namespace Layers

/-- The newest version of a key. -/
def newest : List (Layer K V) → K → Option (Option V)
  | [], _ => none
  | layer :: older, key => (layer.get key).or (newest older key)

/-- The value of a key that was not deleted. -/
def visible (layers : List (Layer K V)) (key : K) : Option V := (newest layers key).join

/-- Put the entries of the window layer by layer, the oldest layer first. -/
def mergeRange (lower upper : Option K) (layers : List (Layer K V)) : Layer K V :=
  layers.foldr (fun layer merged => merged.putAll (layer.range lower upper)) SortedMap.empty

/-- The entries that are not deletions. -/
def live (entries : List (K × Option V)) : List (K × V) :=
  entries.filterMap fun entry => entry.2.map (entry.1, ·)

def withoutDeletions (layer : Layer K V) : Layer K V where
  entries := layer.entries.filter (·.2.isSome)
  ascending := layer.ascending.filter _

/-! ## Lookups -/

theorem get_range (layer : Layer K V) (lower upper : Option K) (key : K) :
    (layer.range lower upper).lookup key = if InRange lower upper key then layer.get key else none :=
  lookup_entriesInRange layer.ascending lower upper key

theorem get_mergeRange (lower upper : Option K) (layers : List (Layer K V)) (key : K) :
    (mergeRange lower upper layers).get key =
      if InRange lower upper key then newest layers key else none := by
  induction layers with
  | nil => simp [mergeRange, newest]
  | cons layer older induction =>
      have merged : mergeRange lower upper (layer :: older) =
          (mergeRange lower upper older).putAll (layer.range lower upper) := rfl
      rw [merged, SortedMap.get_putAll _ (layer.range_ascending lower upper), get_range, induction]
      by_cases inside : InRange lower upper key
      · simp [inside, newest]
      · simp [inside]

theorem lookup_live : ∀ {entries : List (K × Option V)}, Ascending entries → ∀ key,
    (live entries).lookup key = (entries.lookup key).join
  | [], _, _ => rfl
  | (other, version) :: rest, ascending, key => by
      have parts := ascending_cons.mp ascending
      have later := lookup_live parts.2 key
      rw [lookup_cons_eq]
      cases version with
      | none =>
          have skipped : live ((other, none) :: rest) = live rest := rfl
          rw [skipped, later]
          by_cases equal : key = other
          · subst equal
            simp [lookup_eq_none_of_below parts.1]
          · simp [equal]
      | some value =>
          have kept : live ((other, some value) :: rest) = (other, value) :: live rest := rfl
          rw [kept, lookup_cons_eq, later]
          by_cases equal : key = other
          · simp [equal]
          · simp [equal]

omit [LinearOrder K] in
theorem live_keys (entries : List (K × Option V)) :
    ((live entries).map Prod.fst).Sublist (entries.map Prod.fst) := by
  induction entries with
  | nil => exact .slnil
  | cons entry rest induction =>
      obtain ⟨key, version⟩ := entry
      cases version with
      | none => exact induction.cons _
      | some value => exact induction.cons_cons _

theorem Ascending.live {entries : List (K × Option V)} (ascending : Ascending entries) :
    Ascending (live entries) :=
  List.Pairwise.sublist (live_keys entries) ascending

theorem get_withoutDeletions (layer : Layer K V) (key : K) :
    (withoutDeletions layer).get key = (layer.get key).filter (·.isSome) := by
  apply Option.ext
  intro version
  rw [SortedMap.get, (withoutDeletions layer).ascending.lookup_eq_some_iff, SortedMap.get,
    Option.filter_eq_some_iff, layer.ascending.lookup_eq_some_iff]
  simp [withoutDeletions]

/-! ## Reading layers as one map -/

/-- The layers stand for the map. -/
def Represents (layers : List (Layer K V)) (map : SortedMap K V) : Prop :=
  ∀ key, visible layers key = map.get key

/-- Merging a window of the layers gives the window of the map. -/
theorem Represents.range {layers : List (Layer K V)} {map : SortedMap K V}
    (represents : Represents layers map) (lower upper : Option K) :
    live (mergeRange lower upper layers).entries = map.range lower upper := by
  have merged := (mergeRange lower upper layers).ascending
  refine (Ascending.live merged).ext (map.ascending.filter _) fun key => ?_
  rw [lookup_live merged]
  have found := get_mergeRange lower upper layers key
  rw [SortedMap.get] at found
  rw [found, SortedMap.range, lookup_entriesInRange map.ascending]
  by_cases inside : InRange lower upper key
  · simp only [inside, if_true]
    exact represents key
  · simp [inside]

/-- The map that layers stand for. -/
def flatten (layers : List (Layer K V)) : SortedMap K V where
  entries := live (mergeRange none none layers).entries
  ascending := Ascending.live (mergeRange none none layers).ascending

theorem represents_flatten (layers : List (Layer K V)) : Represents layers (flatten layers) := by
  intro key
  have merged := (mergeRange none none layers).ascending
  have found := get_mergeRange none none layers key
  rw [SortedMap.get] at found
  rw [SortedMap.get, flatten, lookup_live merged, found]
  simp [visible, InRange]

theorem visible_cons (layer : Layer K V) (older : List (Layer K V)) (key : K) :
    visible (layer :: older) key = (layer.get key).getD (visible older key) := by
  rw [visible, newest]
  cases layer.get key <;> rfl

theorem get_merged (layers : List (Layer K V)) (key : K) :
    (mergeRange none none layers).get key = newest layers key := by
  simp [get_mergeRange]

/-- A key of a full merge without the deletions is there when it is visible. -/
theorem newest_compacted (layers older : List (Layer K V)) (key : K) :
    newest (withoutDeletions (mergeRange none none layers) :: older) key =
      ((visible layers key).map some).or (newest older key) := by
  rw [newest, get_withoutDeletions, get_merged, visible]
  rcases newest layers key with _ | _ | value <;> simp [Option.filter]

theorem visible_compacted (layers older : List (Layer K V)) (key : K) :
    visible (withoutDeletions (mergeRange none none layers) :: older) key =
      (visible layers key).or (visible older key) := by
  rw [visible, newest_compacted]
  cases visible layers key <;> simp [visible]

end Layers

end FoundationsLab.Foundation
