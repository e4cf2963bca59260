import VkClient.Runs
import VkClient.ObjectTable
import VkClient.TableView
import VkClient.Json
import VkClient.Services
import VkClient.Authorization
import VkClient.OfflineCache
import VkClient.FriendsTable
import VkClient.FriendsSections
import VkClient.FriendsUpdates
import VkClient.Exchange
import VkClient.PhotoRequests
import VkClient.FriendCollection
import VkClient.GroupsTable
import VkClient.NewsTable
import VkClient.PhotoDownloads
import VkClient.RowReloads
import VkClient.NewsRows
import VkClient.Gallery
import VkClient.SaveTransactions
import VkClient.EdgeSwipe
import VkClient.MainThreadWrites
import VkClient.PhotoLikes
import VkClient.SignIn
import VkClient.TokenProvenance
import VkClient.SectionPartition
import VkClient.Dictionary
import VkClient.FragmentCodec
import VkClient.FriendsSearch
import VkClient.GalleryLoading
import VkClient.NewsAttachments
import VkClient.NewsCellReuse
import VkClient.AppRequests
import VkClient.GroupsSearch
import VkClient.LLRBTree
import VkClient.LLRBRemoval
import VkClient.SortedDictionary
import VkClient.SortedQueries
import VkClient.SortedEnumerators
import VkClient.KeyComparator
import VkClient.PercentCoding
import VkClient.RequestEncoding
import VkClient.Navigation
import VkClient.LeafWrites
import VkClient.SnapshotNode
import VkClient.CompoundWrite
import VkClient.WriteTree
import VkClient.EventCache
