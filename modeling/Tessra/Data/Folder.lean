import Tessra.Data.OrdMap

namespace Tessra.Data

universe u v

/-! Nested folders: what lies in each, and the folders below it in the order of
their names.  `Folder.listed` is all that a folder holds, each under the names
that lead to it. -/

mutual
inductive Folder (ν : Type u) (α : Type v)
  | mk (files : List α) (dirs : Folders ν α)

inductive Folders (ν : Type u) (α : Type v)
  | nil
  | cons (name : ν) (folder : Folder ν α) (rest : Folders ν α)
end

variable {ν : Type u} {α : Type v}

def Folder.empty : Folder ν α := .mk [] .nil

mutual
def Folder.listed : Folder ν α → List (List ν × α)
  | .mk files dirs => files.map (fun x => ([], x)) ++ dirs.listed

def Folders.listed : Folders ν α → List (List ν × α)
  | .nil => []
  | .cons name folder rest =>
      folder.listed.map (fun e => (name :: e.1, e.2)) ++ rest.listed
end

@[simp] theorem Folder.listed_empty : (.empty : Folder ν α).listed = [] := by
  simp [Folder.empty, Folder.listed, Folders.listed]

variable [LinearOrder ν]

/-- Change the folder of a name, a new one unless there is one. -/
def Folders.alter (name : ν) (f : Folder ν α → Folder ν α) : Folders ν α → Folders ν α
  | .nil => .cons name (f .empty) .nil
  | .cons first folder rest =>
      if name < first then .cons name (f .empty) (.cons first folder rest)
      else if name = first then .cons first (f folder) rest
      else .cons first folder (alter name f rest)

/-- Put something in the folder that the names lead to. -/
def Folder.add (x : α) : List ν → Folder ν α → Folder ν α
  | [], .mk files dirs => .mk (files ++ [x]) dirs
  | name :: names, .mk files dirs => .mk files (dirs.alter name (add x names))

variable {name : ν} {names : List ν} {x : α} {f : Folder ν α → Folder ν α}

theorem Folders.perm_listed_alter
    (hf : ∀ folder, (f folder).listed.Perm ((names, x) :: folder.listed)) :
    ∀ dirs : Folders ν α, (dirs.alter name f).listed.Perm ((name :: names, x) :: dirs.listed)
  | .nil => by
      simpa [Folders.alter, Folders.listed] using
        (hf .empty).map fun e : List ν × α => (name :: e.1, e.2)
  | .cons first folder rest => by
      rw [Folders.alter]
      split_ifs with hlt heq
      · have hnew := (hf .empty).map fun e : List ν × α => (name :: e.1, e.2)
        rw [Folder.listed_empty] at hnew
        exact hnew.append_right _
      · subst heq
        have hnew := (hf folder).map fun e : List ν × α => (name :: e.1, e.2)
        exact hnew.append_right rest.listed
      · have hrest := Folders.perm_listed_alter hf rest
        have happend := hrest.append_left (folder.listed.map fun e => (first :: e.1, e.2))
        exact happend.trans List.perm_middle

theorem Folder.perm_listed_add (x : α) : ∀ (names : List ν) (folder : Folder ν α),
    (folder.add x names).listed.Perm ((names, x) :: folder.listed)
  | [], .mk files dirs => by
      simp only [Folder.add, Folder.listed, List.map_append, List.append_assoc]
      exact List.perm_middle
  | name :: names, .mk files dirs => by
      have hdirs := @Folders.perm_listed_alter _ _ _ name names x _ (Folder.perm_listed_add x names) dirs
      exact (hdirs.append_left _).trans List.perm_middle

/-- All of a list, added one after the other. -/
theorem Folder.perm_listed_foldl (l : List (List ν × α)) (folder : Folder ν α) :
    (l.foldl (fun folder e => folder.add e.2 e.1) folder).listed.Perm (folder.listed ++ l) := by
  induction l generalizing folder with
  | nil => simp
  | cons e l ih =>
      refine (ih _).trans ?_
      have hadd := (Folder.perm_listed_add e.2 e.1 folder).append_right l
      exact hadd.trans List.perm_middle.symm

end Tessra.Data
