import JsonTemplate.Plugin.Formatters
import JsonTemplate.Plugin.Predicates

namespace JsonTemplate

def Catalog.core : Catalog where
  formatters := CoreFormatter.all.map fun f => (f.name, f.toFormatter)
  predicates := CorePredicate.all.map fun p => (p.name, p.toPredicate)

end JsonTemplate
