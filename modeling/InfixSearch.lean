import InfixSearch.Node.History
import InfixSearch.Node.Room
import InfixSearch.Search.Storage
import InfixSearch.Search.Positions
import InfixSearch.Search.Overflow
import InfixSearch.Search.Repeat
import InfixSearch.Search.Plain
import InfixSearch.Search.Loading
import InfixSearch.Search.Paths
import InfixSearch.Search.Stopping
import InfixSearch.Search.Linear
import InfixSearch.Service.Master
import InfixSearch.Service.FanOut
import InfixSearch.Service.Registry
import InfixSearch.Service.Slave
import InfixSearch.Hadoop.Sorter
import InfixSearch.Dawg.CompactNode
import InfixSearch.Dawgdic.Programs
