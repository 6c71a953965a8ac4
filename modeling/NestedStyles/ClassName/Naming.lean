import NestedStyles.Cache.Store
import NestedStyles.ClassName.Readable
import NestedStyles.ClassName.Token
/-!
# Naming classes

A class has its readable name, or a short token in its place. Tokens are handed out by a store under
the readable name, so that a class has the same token wherever it is named; a new one has the number
of names so far for its index.
-/
namespace NestedStyles.ClassName

open Cache (Store StoreM)

/-- The token for a readable class name. -/
def compressed (name : String) : StoreM String := Store.fetch name fun names => token names.length

/-- The name of the class for a style under prefixes, compressed or readable. -/
def classFor (prefixes : List String) (compress : Bool) (style : String) : StoreM String :=
  if compress then compressed (readable prefixes style) else return readable prefixes style

end NestedStyles.ClassName
