import Appchain.Store.MultiStore
import Appchain.Layout

/-!
# Databases as bytes

A database is kept as the list of its trees, each with its name and its entries.
-/

namespace Appchain.Database

def treeLayout : Layout Tree :=
  (Layout.sized ++ Layout.sized).list.iso OrderedMap.ofList OrderedMap.entries

def layout : Layout Database :=
  (Layout.text ++ treeLayout).list.iso OrderedMap.ofList OrderedMap.entries

end Appchain.Database
